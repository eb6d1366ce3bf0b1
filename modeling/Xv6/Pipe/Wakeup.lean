import Xv6.Pipe.Fifo

/-!
# Wakeups of pipes

Who sleeps on `&p->nread` waits for bytes, and who sleeps on `&p->nwrite` waits for room;
nobody should be left asleep when there are bytes, or room, or the other end is gone.
Nearly every way out of the two loops issues the wakeup that keeps this true.  The
exception is the `return -1` inside the full-pipe loop of `pipewrite`: a writer that has
been killed, or whose readers are gone, may fill the pipe and give up without waking the
readers that slept while it was empty.
-/

namespace Xv6.Pipes

open Function Transition PipeSys

variable {ι : Type} [DecidableEq ι] {S S' : PipeSys ι} {t u : ι}

namespace PipeSys

/-- Whoever sleeps has a reason. -/
structure Settled (S : PipeSys ι) : Prop where
  readers : ∀ t n, S.thread t = .asleep (.read n) →
    S.pipe.isEmpty = true ∧ S.pipe.writeopen = true
  writers : ∀ t n i, S.thread t = .asleep (.write n i) →
    S.pipe.isFull = true ∧ S.pipe.readopen = true

omit [DecidableEq ι] in
theorem isFull_eq_true : S.pipe.isFull = true ↔ S.pipe.length = pipesize :=
  Ring.isFull_iff pipesize_lt _

omit [DecidableEq ι] in
theorem isEmpty_eq_true : S.pipe.isEmpty = true ↔ S.pipe.length = 0 :=
  Ring.isEmpty_iff _

/-! ## Who is asleep -/

theorem asleep_put {s : Status} {c : PipeCall} (h : (S.put t s).thread u = .asleep c) :
    s = .asleep c ∨ S.thread u = .asleep c := by
  dsimp only [put] at h
  rcases eq_or_ne u t with rfl | hu
  · rw [update_self] at h
    exact .inl h
  · rw [update_of_ne hu] at h
    exact .inr h

theorem asleep_put_outside {c : PipeCall} (h : (S.put t .outside).thread u = .asleep c) :
    S.thread u = .asleep c :=
  (asleep_put h).resolve_left Status.noConfusion

section

omit [DecidableEq ι]

theorem no_reader_wakeReaders {n : ℤ} : S.wakeReaders.thread u ≠ .asleep (.read n) := by
  intro h
  dsimp only [wakeReaders] at h
  split at h
  · cases h
  · rename_i hn
    exact hn n h

theorem writer_wakeReaders {n : ℤ} {i : ℕ} (h : S.wakeReaders.thread u = .asleep (.write n i)) :
    S.thread u = .asleep (.write n i) := by
  dsimp only [wakeReaders] at h
  split at h
  · cases h
  · exact h

theorem no_writer_wakeWriters {n : ℤ} {i : ℕ} : S.wakeWriters.thread u ≠ .asleep (.write n i) := by
  intro h
  dsimp only [wakeWriters] at h
  split at h
  · cases h
  · rename_i hn
    exact hn n i h

theorem reader_wakeWriters {n : ℤ} (h : S.wakeWriters.thread u = .asleep (.read n)) :
    S.thread u = .asleep (.read n) := by
  dsimp only [wakeWriters] at h
  split at h
  · cases h
  · exact h

end

theorem asleep_kill {c : PipeCall} (h : (S.kill t).thread u = .asleep c) :
    S.thread u = .asleep c := by
  refine (asleep_put h).resolve_left fun hs => ?_
  split at hs
  · cases hs
  · rename_i hn
    exact hn c hs

/-! ## What the loops do -/

section

omit [DecidableEq ι]

theorem fill_frame (addr : ℕ → UInt8) :
    ∀ (k i : ℕ) (S : PipeSys ι), (S.fill addr k i).2.thread = S.thread ∧
      (S.fill addr k i).2.killed = S.killed ∧
      (S.fill addr k i).2.pipe.readopen = S.pipe.readopen ∧
      (S.fill addr k i).2.pipe.writeopen = S.pipe.writeopen
  | 0, _, _ => ⟨rfl, rfl, rfl, rfl⟩
  | k + 1, i, S => by
    unfold fill
    split
    · exact ⟨rfl, rfl, rfl, rfl⟩
    · exact fill_frame addr k (i + 1) (S.store (addr i))

theorem fill_spec (addr : ℕ → UInt8) :
    ∀ (k i : ℕ) {S : PipeSys ι}, S.pipe.length ≤ pipesize →
      (S.fill addr k i).1 = i + min k (pipesize - S.pipe.length) ∧
      (S.fill addr k i).2.pipe.length = S.pipe.length + min k (pipesize - S.pipe.length)
  | 0, i, S, _ => by
    rw [Nat.zero_min]
    exact ⟨rfl, rfl⟩
  | k + 1, i, S, hle => by
    unfold fill
    split
    · rename_i hf
      rw [isFull_eq_true.mp hf, Nat.sub_self, Nat.min_zero]
      exact ⟨rfl, rfl⟩
    · rename_i hf
      have hlt : S.pipe.length < pipesize :=
        lt_of_le_of_ne hle fun he => hf (isFull_eq_true.mpr he)
      have hlen : (S.store (addr i)).pipe.length = S.pipe.length + 1 :=
        Ring.length_push _ _ (by have := pipesize_lt; omega)
      obtain ⟨h1, h2⟩ := fill_spec addr k (i + 1) (S := S.store (addr i)) (by omega)
      rw [hlen] at h1 h2
      constructor
      · rw [h1]
        omega
      · rw [h2]
        omega

theorem drain_frame :
    ∀ (k : ℕ) (S : PipeSys ι), (S.drain k).2.thread = S.thread ∧
      (S.drain k).2.pipe.readopen = S.pipe.readopen ∧
      (S.drain k).2.pipe.writeopen = S.pipe.writeopen
  | 0, _ => ⟨rfl, rfl, rfl⟩
  | k + 1, S => by
    unfold drain
    split
    · exact ⟨rfl, rfl, rfl⟩
    · exact drain_frame k S.take

theorem drain_of_isEmpty {k : ℕ} (h : S.pipe.isEmpty = true) : S.drain k = (0, S) := by
  cases k with
  | zero => rfl
  | succ k =>
    unfold drain
    rw [if_pos h]

end

/-! ## Each stretch -/

/-- Thread `t`, with `n - i` bytes to write, stores some of them, gives up because it has
been killed or the readers are gone, and leaves somebody asleep on `&p->nread`. -/
def Abandons (S : PipeSys ι) (t : ι) (n : ℤ) (i : ℕ) : Prop :=
  (S.pipe.readopen = false ∨ S.killed t = true) ∧ S.pipe.length < pipesize ∧
  pipesize - S.pipe.length < n.toNat - i ∧ ∃ u m, S.thread u = .asleep (.read m)

theorem Settled.pipewrite (h : S.Settled) (hq : S.Queue) (addr : ℕ → UInt8) {n : ℤ} {i : ℕ}
    (hno : ¬ S.Abandons t n i) : (S.pipewrite t addr n i).2.Settled := by
  obtain ⟨hthread, hkilled, hread, hwrite⟩ := fill_frame addr (n.toNat - i) i S
  obtain ⟨hi, hlen⟩ := fill_spec addr (n.toNat - i) i hq.length
  have hle := hq.length
  -- a writer that slept before found the pipe full, and full it has stayed
  have hwriters : ∀ u m j, (S.fill addr (n.toNat - i) i).2.thread u = .asleep (.write m j) →
      (S.fill addr (n.toNat - i) i).2.pipe.isFull = true ∧
      (S.fill addr (n.toNat - i) i).2.pipe.readopen = true := by
    intro u m j hu
    rw [hthread] at hu
    obtain ⟨hf, ho⟩ := h.writers u m j hu
    rw [isFull_eq_true] at hf
    rw [isFull_eq_true, hlen, hf, hread]
    exact ⟨by omega, ho⟩
  unfold PipeSys.pipewrite
  dsimp only
  split
  · constructor
    · intro u m hu
      exact absurd (asleep_put_outside hu) no_reader_wakeReaders
    · intro u m j hu
      exact hwriters u m j (writer_wakeReaders (asleep_put_outside hu))
  · rename_i hlt
    rw [hi] at hlt
    split
    · rename_i hgone
      rw [hread, hkilled] at hgone
      constructor
      · intro u m hu
        have hu' := asleep_put_outside hu
        rw [hthread] at hu'
        -- nothing was stored: there was no room
        have hfull : ¬ S.pipe.length < pipesize := fun hroom =>
          hno ⟨hgone, hroom, by omega, u, m, hu'⟩
        have hempty := isEmpty_eq_true.mp (h.readers u m hu').1
        have : 0 < pipesize := by decide
        omega
      · intro u m j hu
        exact hwriters u m j (asleep_put_outside hu)
    · rename_i hopen
      constructor
      · intro u m hu
        rcases asleep_put hu with hs | hs
        · cases hs
        · exact absurd hs no_reader_wakeReaders
      · intro u m j _
        show (S.fill addr (n.toNat - i) i).2.pipe.isFull = true ∧
          (S.fill addr (n.toNat - i) i).2.pipe.readopen = true
        rw [isFull_eq_true, hlen]
        refine ⟨by omega, ?_⟩
        rw [← Bool.not_eq_false]
        exact fun ho => hopen (.inl ho)

theorem Abandons.not_settled {n : ℤ} {i : ℕ} (h : S.Abandons t n i) (hq : S.Queue)
    (ht : ∀ c, S.thread t ≠ .asleep c) (addr : ℕ → UInt8) :
    ¬ (S.pipewrite t addr n i).2.Settled := by
  obtain ⟨hgone, hroom, hleft, u, m, hu⟩ := h
  obtain ⟨hthread, hkilled, hread, -⟩ := fill_frame addr (n.toNat - i) i S
  obtain ⟨hi, hlen⟩ := fill_spec addr (n.toNat - i) i hq.length
  have hut : u ≠ t := by
    rintro rfl
    exact ht _ hu
  have hend : (S.pipewrite t addr n i).2 = (S.fill addr (n.toNat - i) i).2.put t .outside := by
    unfold PipeSys.pipewrite
    dsimp only
    rw [if_neg (by omega), if_pos (by rw [hread, hkilled]; exact hgone)]
  intro hS
  rw [hend] at hS
  have hasleep : ((S.fill addr (n.toNat - i) i).2.put t .outside).thread u = .asleep (.read m) := by
    dsimp only [put]
    rw [update_of_ne hut, hthread, hu]
  have hempty := (hS.readers u m hasleep).1
  rw [put_pipe, isEmpty_eq_true, hlen] at hempty
  omega

theorem Settled.piperead (h : S.Settled) (t : ι) (n : ℤ) : (S.piperead t n).2.Settled := by
  obtain ⟨hthread, hread, hwrite⟩ := drain_frame n.toNat S
  unfold PipeSys.piperead
  split
  · rename_i he
    split
    · constructor
      · intro u m hu
        exact h.readers u m (asleep_put_outside hu)
      · intro u m j hu
        exact h.writers u m j (asleep_put_outside hu)
    · constructor
      · intro u m _
        exact he
      · intro u m j hu
        rcases asleep_put hu with hs | hs
        · cases hs
        · exact h.writers u m j hs
  · constructor
    · intro u m hu
      have hu' := reader_wakeWriters (asleep_put_outside hu)
      rw [hthread] at hu'
      -- the pipe was empty, so nothing has been taken
      obtain ⟨he, hw⟩ := h.readers u m hu'
      show (S.drain n.toNat).2.pipe.isEmpty = true ∧ (S.drain n.toNat).2.pipe.writeopen = true
      rw [drain_of_isEmpty he]
      exact ⟨he, hw⟩
    · intro u m j hu
      exact absurd (asleep_put_outside hu) no_writer_wakeWriters

omit [DecidableEq ι] in
theorem Settled.pipeclose (h : S.Settled) (writable : Bool) : (S.pipeclose writable).Settled := by
  cases writable with
  | true =>
    constructor
    · intro u m hu
      exact absurd hu no_reader_wakeReaders
    · intro u m j hu
      exact h.writers u m j (writer_wakeReaders hu)
  | false =>
    constructor
    · intro u m hu
      exact h.readers u m (reader_wakeWriters hu)
    · intro u m j hu
      exact absurd hu no_writer_wakeWriters

theorem Settled.kill (h : S.Settled) (t : ι) : (S.kill t).Settled where
  readers u m hu := h.readers u m (asleep_kill hu)
  writers u m j hu := h.writers u m j (asleep_kill hu)

end PipeSys

/-! ## Runs -/

/-- The step is no stretch of `pipewrite` that abandons a reader. -/
def Fine : PipeSys ι → PipeAct ι → Prop
  | S, .write t _ n => ¬ S.Abandons t n 0
  | S, .resume t _ => ∀ n i, S.thread t = .awake (.write n i) → ¬ S.Abandons t n i
  | _, _ => True

omit [DecidableEq ι] in
theorem settled_of_opened (h : Opened S) : S.Settled := by
  constructor
  · intro t n ht
    rw [h.thread t] at ht
    cases ht
  · intro t n i ht
    rw [h.thread t] at ht
    cases ht

theorem settled_iff_fine {a : PipeAct ι} (h : S.Settled) (hq : S.Queue) (hm : Moves S a S') :
    S'.Settled ↔ Fine S a := by
  cases hm with
  | @write a t addr n i hstart =>
    have hawake : ∀ c, S.thread t ≠ .asleep c := by
      intro c hc
      rcases hstart with ⟨-, -, ht⟩ | ⟨-, ht⟩
      · rw [ht] at hc
        cases hc
      · rw [ht] at hc
        cases hc
    have hfine : Fine S a ↔ ¬ S.Abandons t n i := by
      rcases hstart with ⟨rfl, rfl, ht⟩ | ⟨rfl, ht⟩
      · rfl
      · constructor
        · intro hf
          exact hf n i ht
        · intro hno n' i' ht'
          rw [ht] at ht'
          cases ht'
          exact hno
    rw [hfine]
    exact ⟨fun hS hab => hab.not_settled hq hawake addr hS, h.pipewrite hq addr⟩
  | @read a t n hstart =>
    refine iff_of_true (h.piperead t n) ?_
    rcases hstart with ⟨rfl, -⟩ | ⟨⟨addr, rfl⟩, ht⟩
    · trivial
    · intro n' i' ht'
      rw [ht] at ht'
      cases ht'
  | close => exact iff_of_true (h.pipeclose _) trivial
  | kill => exact iff_of_true (h.kill _) trivial

/-- **Nobody sleeps without a reason, unless a writer gives up.**  In every run in which
no stretch of `pipewrite` abandons a reader, whoever sleeps on `&p->nread` finds the pipe
empty and its write end open, and whoever sleeps on `&p->nwrite` finds it full and its
read end open; the next step keeps this exactly when it is no such stretch. -/
theorem no_lost_wakeup (h : Reach step Fine Opened S) :
    S.Settled ∧ ∀ a S', step S a = some (.ok S') → (S'.Settled ↔ Fine S a) := by
  have hinv : S.Settled ∧ S.Queue := by
    refine Reach.invariant (I := fun S => S.Settled ∧ S.Queue)
      (fun S hS => ⟨settled_of_opened hS, queue_of_opened hS⟩) ?_ h
    intro S a S' hS hok hs
    have hm := Moves.of_step hs
    exact ⟨(settled_iff_fine hS.1 hS.2 hm).mpr hok, queue_of_moves hS.2 hm⟩
  exact ⟨hinv.1, fun a S' hs => settled_iff_fine hinv.1 hinv.2 (Moves.of_step hs)⟩

omit [DecidableEq ι] in
theorem fine_of_alive (hr : S.pipe.readopen = true) (hk : ∀ t, S.killed t = false)
    (a : PipeAct ι) : Fine S a := by
  have hno : ∀ t n i, ¬ S.Abandons t n i := by
    rintro t n i ⟨hgone, -⟩
    rw [hr, hk t] at hgone
    rcases hgone with h | h <;> cases h
  cases a with
  | write t addr n => exact hno t n 0
  | resume t addr => exact fun n i _ => hno t n i
  | read | close | kill => trivial

/-- A reader sleeps on an empty pipe, a writer stores three bytes and wakes it up, and it
takes two of them. -/
theorem no_lost_wakeup_wakesReader :
    ∃ S : PipeSys Bool, Reach step Fine Opened S ∧ S.delivered = [1, 2] ∧ S.Settled := by
  have he : endsIn step opened
      [.read false 2, .write true (fun i => UInt8.ofNat (i + 1)) 3, .resume false fun _ => 0]
      (fun S => S.delivered == [1, 2]) = true := by decide +kernel
  obtain ⟨S, hS, hd⟩ := Reach.of_endsIn opened_opened he
    (show Meets step (fun S _ => S.pipe.readopen = true ∧ ∀ t, S.killed t = false) opened _ by
      decide +kernel)
  have hfine := hS.weaken fun S a ha => fine_of_alive ha.1 ha.2 a
  exact ⟨S, hfine, by simpa using hd, (no_lost_wakeup hfine).1⟩

/-- The thread is asleep in `piperead`. -/
def Status.readerAsleep : Status → Bool
  | .asleep (.read _) => true
  | _ => false

/-- **A killed writer leaves a reader asleep beside a full pipe.**  The writer has 1100
bytes; it fills the pipe and sleeps, the reader takes all 512 of them and comes back for
more, the writer is killed, fills the pipe again and returns `-1`. -/
theorem killed_writer_loses_wakeup :
    ∃ S : PipeSys Bool, Reach step anyStep Opened S ∧
      ∃ t n, S.thread t = .asleep (.read n) ∧ S.pipe.isEmpty = false := by
  have he : endsIn step opened
      [.read false 512, .write true (fun _ => 0) 1100, .resume false fun _ => 0, .read false 512,
        .kill true, .resume true fun _ => 0]
      (fun S => (S.thread false).readerAsleep && !S.pipe.isEmpty) = true := by decide +kernel
  obtain ⟨S, hS, hd⟩ := Reach.of_endsIn opened_opened he
  rw [Bool.and_eq_true] at hd
  obtain ⟨ht, hne⟩ := hd
  unfold Status.readerAsleep at ht
  split at ht
  · rename_i n hs
    exact ⟨S, hS, false, n, hs, by simpa using hne⟩
  · cases ht

end Xv6.Pipes
