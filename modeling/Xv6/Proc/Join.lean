import Xv6.Proc.Marks

/-!
# `kthread_join` and the lives of threads

The identifier that `kthread_create` returns is a field of the thread's slot, and
`kthread_join` looks for it there.  `kthread_exit` writes 0 over it, so a thread that has
exited is never found; and 0 is also what the field holds in slots that no thread was ever
created in, the first one included, so `kthread_join(0)` finds those.

To say what `kthread_join` should do, who was given which identifier has to be recorded
somewhere else.  `Names` is that record, and `stepNamed` keeps it along a run: an identifier
is entered when `kthread_create` hands it out and crossed out when it has been joined.
-/

namespace Xv6.Proc

open Function Transition Kernel

variable {ncpu : ℕ} {S S' : Kernel ncpu} {G : Slot → Ctx} {c : Fin ncpu} {s : Slot}

/-- The identifiers that have been handed out and not been joined, by slot. -/
abbrev Names := Slot → Option Int32

namespace Kernel

/-- The record after thread `s` has performed an operation. -/
def rename (S : Kernel ncpu) (s : Slot) (I : Names) : KOp → Names
  | .threadAlloc =>
    match (S.threadAlloc s.1).1 with
    | none => I
    | some t => update I (s.1, t) (some S.nexttid)
  | .threadJoin tid =>
    if (S.zombieThread s.1 tid).isSome then
      fun u => if u.1 = s.1 ∧ I u = some tid then none else I u
    else I
  -- the process is over
  | .exitDone => fun u => if u.1 = s.1 then none else I u
  | _ => I

/-- The record after an action. -/
def names (S : Kernel ncpu) (I : Names) : Act ncpu → Names
  | .run c _ =>
    match S.nextOp c with
    | some (s, e) => S.rename s I e
    | none => I
  | _ => I

/-- Test for `Fresh`. -/
def fresh (S : Kernel ncpu) : Act ncpu → Bool
  | .run c _ =>
    match S.nextOp c with
    | some (_, .threadAlloc) => decide (0 < S.nexttid)
    | _ => true
  | _ => true

/-- Test for `Stays`. -/
def stays (S : Kernel ncpu) (I : Names) : Act ncpu → Bool
  | .run c _ =>
    match S.nextOp c with
    | some (s, .threadExit) => (I s).isNone || (S.proc s.1).killed
    | _ => true
  | _ => true

end Kernel

/-- One step of the kernel, and of the record. -/
def stepNamed {ncpu : ℕ} : StepFn (Kernel ncpu × Names) (Act ncpu) Unit := fun x a =>
  match step x.1 a with
  | none => none
  | some (.error e) => some (.error e)
  | some (.ok S') => some (.ok (S', x.1.names x.2 a))

/-- At the start no identifier has been handed out. -/
def Unnamed (x : Kernel ncpu × Names) : Prop := Booted x.1 ∧ x.2 = fun _ => none

/-- The steps in which an identifier that is handed out is positive. -/
def Fresh (x : Kernel ncpu × Names) (a : Act ncpu) : Prop := x.1.fresh a = true

/-- The steps in which no created thread calls `kthread_exit`, unless its process has been
killed. -/
def Stays (x : Kernel ncpu × Names) (a : Act ncpu) : Prop := x.1.stays x.2 a = true

/-- The steps that are orderly and fresh. -/
def InOrder (x : Kernel ncpu × Names) (a : Act ncpu) : Prop := Orderly x.1 a ∧ Fresh x a

/-- The steps after which joining still agrees with the lives of threads. -/
def Joinable (x : Kernel ncpu × Names) (a : Act ncpu) : Prop := InOrder x a ∧ Stays x a

instance (x : Kernel ncpu × Names) (a : Act ncpu) : Decidable (Joinable x a) :=
  inferInstanceAs (Decidable ((_ ∧ _ = true) ∧ _ = true))

/-- **Joining agrees with the lives of threads.** -/
structure JoinsRight (x : Kernel ncpu × Names) : Prop where
  /-- Joining a thread sleeps on it while it lives, and returns its identifier once it has
  exited, unless the process has been killed. -/
  named : ∀ s t tid c ch, (x.1.thread s).state.live = true → t ≠ s.2 → x.2 (s.1, t) = some tid →
    (x.1.proc s.1).killed = false →
    if (x.1.thread (s.1, t)).state.live = true then
      x.1.perform c s ch (.threadJoin tid) = some (.sleep (.thread (s.1, t)))
    else ∃ S', x.1.perform c s ch (.threadJoin tid) = some (.done tid S')
  /-- Joining an identifier that nobody has returns -1. -/
  unnamed : ∀ s tid c ch, (x.1.thread s).state.live = true → tid ≠ 0 →
    (∀ t, x.2 (s.1, t) ≠ some tid) →
    ∃ S', x.1.perform c s ch (.threadJoin tid) = some (.done (-1) S')
  /-- Whoever sleeps in a join sleeps on a living thread that has the identifier. -/
  asleep : ∀ u tid k, (x.1.thread u).state = .sleeping →
    x.1.code u = .vis (.threadJoin tid) k → tid ≠ 0 →
    ∃ t, x.2 (u.1, t) = some tid ∧ (x.1.thread (u.1, t)).state.live = true ∧
      (x.1.thread u).chan = .thread (u.1, t)

/-- What the slots have to do with the record. -/
structure Tracked (S : Kernel ncpu) (I : Names) : Prop where
  ids : ∀ {u i}, I u = some i → 0 < i ∧ (0 < S.nexttid → i < S.nexttid)
  uniq : ∀ {u v i}, I u = some i → I v = some i → u = v
  plain : ∀ u, (S.thread u).tid = 0 ∨ (S.thread u).tid = -1 ∨ I u = some (S.thread u).tid
  zombie : ∀ {u}, (S.thread u).state = .zombie → (S.thread u).tid = 0 ∨ (S.thread u).tid = -1
  joined : ∀ {u}, (S.thread u).tid = -1 → (S.thread u).state = .zombie
  used : ∀ {u i}, I u = some i → (S.thread u).state ≠ .unused
  ready : ∀ {u i}, I u = some i → (S.proc u.1).isReady = true
  off : ∀ {u : Slot}, (S.proc u.1).isReady = false → (S.thread u).tid = 0
  /-- A created thread keeps its identifier, and its life, unless its process is killed. -/
  named : ∀ {u i}, I u = some i →
    (S.proc u.1).killed = true ∨ (S.thread u).tid = i ∧ (S.thread u).state.live = true
  asleep : ∀ {u : Slot} {tid k}, (S.thread u).state = .sleeping →
    S.code u = .vis (.threadJoin tid) k → tid ≠ 0 →
    ∃ t, I (u.1, t) = some tid ∧ (S.thread (u.1, t)).state.live = true ∧
      (S.thread u).chan = .thread (u.1, t)

/-! ## What `kthread_join` finds -/

theorem lastThread_tid {p : PId} {tid : Int32} {t : TId} (h : S.lastThread p tid = some t) :
    (S.thread (p, t)).tid = tid := by
  simpa using List.find?_some h

theorem lastThread_ne_none {p : PId} {tid : Int32} {t : TId} (h : (S.thread (p, t)).tid = tid) :
    S.lastThread p tid ≠ none := by
  intro hnone
  have := List.find?_eq_none.mp hnone t (by simp)
  simp [h] at this

theorem zombieThread_spec {p : PId} {tid : Int32} {t : TId} (h : S.zombieThread p tid = some t) :
    (S.thread (p, t)).tid = tid ∧ (S.thread (p, t)).state = .zombie := by
  simpa using first?_eq_some h

theorem zombieThread_ne_none {p : PId} {tid : Int32} {t : TId} (h : (S.thread (p, t)).tid = tid)
    (hz : (S.thread (p, t)).state = .zombie) : S.zombieThread p tid ≠ none := by
  intro hnone
  have := List.find?_eq_none.mp hnone t (List.mem_finRange t)
  simp [h, hz] at this

theorem threadAlloc_none {p : PId} (h : (S.threadAlloc p).1 = none) : (S.threadAlloc p).2 = S := by
  unfold threadAlloc at h ⊢
  split at h
  · rfl
  · cases h

theorem threadAlloc_some {p : PId} {t : TId} (h : (S.threadAlloc p).1 = some t) :
    (S.thread (p, t)).state = .unused ∧
    (S.threadAlloc p).2.thread = update S.thread (p, t)
      { S.thread (p, t) with state := .embryo, tid := S.nexttid } ∧
    (S.threadAlloc p).2.nexttid = S.nexttid + 1 ∧ (S.threadAlloc p).2.proc = S.proc := by
  unfold threadAlloc at h ⊢
  split at h
  · cases h
  · rename_i t' hf
    cases h
    exact ⟨by simpa using first?_eq_some hf, rfl, rfl, rfl⟩

section Perform

variable {ch : Choice} {tid : Int32} (hrow : (S.proc s.1).threads = true)
include hrow

theorem perform_join_zombie {t : TId} (hz : S.zombieThread s.1 tid = some t) :
    ∃ S', S.perform c s ch (.threadJoin tid) = some (.done tid S') := by
  simp [perform, withRow, hrow, hz]

theorem perform_join_none (hz : S.zombieThread s.1 tid = none)
    (hl : S.lastThread s.1 tid = none) :
    S.perform c s ch (.threadJoin tid) = some (.done (-1) S) := by
  simp [perform, withRow, hrow, hz, hl]

theorem perform_join_sleep {t : TId} (hz : S.zombieThread s.1 tid = none)
    (hl : S.lastThread s.1 tid = some t) (hk : (S.proc s.1).killed = false) :
    S.perform c s ch (.threadJoin tid) = some (.sleep (.thread (s.1, t))) := by
  simp [perform, withRow, hrow, hz, hl, hk]

end Perform

namespace Tracked

variable {I : Names}

theorem ids_ne (h : Tracked S I) {u : Slot} {i : Int32} (hu : I u = some i) : i ≠ 0 ∧ i ≠ -1 := by
  obtain ⟨hpos, -⟩ := h.ids hu
  constructor <;> rintro rfl <;> exact absurd hpos (by decide)

theorem zombieThread_none (h : Tracked S I) {p : PId} {tid : Int32} (h0 : tid ≠ 0)
    (h1 : tid ≠ -1) : S.zombieThread p tid = none := by
  cases hz : S.zombieThread p tid with
  | none => rfl
  | some t =>
    obtain ⟨htid, hstate⟩ := zombieThread_spec hz
    obtain h | h := h.zombie hstate
    · exact absurd (htid.symm.trans h) h0
    · exact absurd (htid.symm.trans h) h1

theorem name_of_lastThread (h : Tracked S I) {p : PId} {tid : Int32} {t : TId} (h0 : tid ≠ 0)
    (hz : S.zombieThread p tid = none) (hl : S.lastThread p tid = some t) :
    I (p, t) = some tid := by
  have htid := lastThread_tid hl
  obtain h' | h' | h' := h.plain (p, t)
  · exact absurd (htid.symm.trans h') h0
  · exact absurd hz (zombieThread_ne_none htid (h.joined h'))
  · rwa [htid] at h'

/-- **While the slots are tracked, joining is right.** -/
theorem joinsRight (h : Tracked S I) (ht : Tables S) : JoinsRight (S, I) := by
  have hrow : ∀ {s : Slot}, (S.thread s).state.live = true → (S.proc s.1).threads = true :=
    fun hs => ht.row (Entry.live_of_isReady (ht.ready hs))
  refine ⟨fun s t tid c ch hs _ hI hk => ?_, fun s tid c ch hs h0 hI => ?_,
    fun u tid k hu hcode h0 => h.asleep hu hcode h0⟩
  · obtain hkilled | ⟨htid, hlive⟩ := h.named hI
    · exact absurd (hk.symm.trans hkilled) (by simp)
    obtain ⟨h0, h1⟩ := h.ids_ne hI
    have hz := h.zombieThread_none (p := s.1) h0 h1
    rw [if_pos hlive]
    cases hl : S.lastThread s.1 tid with
    | none => exact absurd hl (lastThread_ne_none htid)
    | some t' =>
      have := h.uniq (h.name_of_lastThread h0 hz hl) hI
      cases this
      exact perform_join_sleep (hrow hs) hz hl hk
  · cases hz : S.zombieThread s.1 tid with
    | none =>
      refine ⟨S, perform_join_none (hrow hs) hz ?_⟩
      cases hl : S.lastThread s.1 tid with
      | none => rfl
      | some t => exact absurd (h.name_of_lastThread h0 hz hl) (hI t)
    | some t =>
      -- only a slot that has been joined is found, and it has the identifier -1
      obtain ⟨htid, hstate⟩ := zombieThread_spec hz
      obtain h' | h' := h.zombie hstate
      · exact absurd (htid.symm.trans h') h0
      · obtain rfl : tid = -1 := htid.symm.trans h'
        exact perform_join_zombie (hrow hs) hz

theorem rename_join (h : Tracked S I) (s : Slot) (tid : Int32) :
    S.rename s I (.threadJoin tid) = I := by
  simp only [rename]
  split
  · rename_i hz
    obtain ⟨t, ht⟩ := Option.isSome_iff_exists.mp hz
    obtain ⟨htid, hstate⟩ := zombieThread_spec ht
    funext u
    rw [if_neg]
    rintro ⟨-, hu⟩
    obtain ⟨h0, h1⟩ := h.ids_ne hu
    obtain h' | h' := h.zombie hstate
    · exact h0 (htid.symm.trans h')
    · exact h1 (htid.symm.trans h')
  · rfl

end Tracked

/-! ## Steps -/

/-- The thread has neither come to its end nor into being, except that its slot may have
been taken. -/
structure Lasts (S S' : Kernel ncpu) (u : Slot) : Prop where
  zombie : (S'.thread u).state = .zombie ↔ (S.thread u).state = .zombie
  live : (S.thread u).state.live = true → (S'.thread u).state.live = true
  unused : (S'.thread u).state = .unused → (S.thread u).state = .unused

theorem Lasts.of_eq {u : Slot} (h : (S'.thread u).state = (S.thread u).state) : Lasts S S' u :=
  ⟨by rw [h], fun hl => by rwa [h], fun hn => by rwa [h] at hn⟩

theorem Lasts.of_active {u : Slot} (h : (S.thread u).state.active = true)
    (h' : (S'.thread u).state.active = true) : Lasts S S' u where
  zombie := by constructor <;> intro hz <;> simp [hz] at h h'
  live _ := RunState.live_of_active h'
  unused hn := by simp [hn] at h'

theorem Turn.lasts {e : KOp} {u : Slot} (h : Turn S S' s e u) : Lasts S S' u := by
  cases h with
  | same h => exact .of_eq h
  | woken h h' => exact .of_active (by simp [h]) (by simp [h'])
  | started _ _ h h' => exact ⟨by simp [h, h'], fun _ => by simp [h'], fun hn => by simp [h'] at hn⟩
  | taken _ _ _ h h' => exact ⟨by simp [h, h'], fun _ => by simp [h'], fun _ => h⟩

theorem Lasts.of_quiet (h : Quiet S S') (u : Slot) : Lasts S S' u := by
  obtain h | ⟨h, h'⟩ := h.thread u
  · exact .of_eq h
  · exact .of_active (by simp [h]) (by simp [h'])

namespace Tracked

variable {I : Names}

theorem keep (h : Tracked S I) (hn : S'.nexttid = S.nexttid)
    (htid : ∀ u, (S'.thread u).tid = (S.thread u).tid)
    (hready : ∀ p, (S.proc p).isReady = true →
      (S'.proc p).isReady = true ∧ ((S.proc p).killed = true → (S'.proc p).killed = true))
    (hlasts : ∀ u : Slot, (S.proc u.1).isReady = true → Lasts S S' u)
    (hasleep : ∀ (u : Slot) tid k, (S'.thread u).state = .sleeping →
      S'.code u = .vis (.threadJoin tid) k → tid ≠ 0 →
      ∃ t, I (u.1, t) = some tid ∧ (S.thread (u.1, t)).state.live = true ∧
        (S'.thread u).chan = .thread (u.1, t)) : Tracked S' I where
  ids hu := by
    rw [hn]
    exact h.ids hu
  uniq := h.uniq
  plain u := by
    rw [htid]
    exact h.plain u
  zombie {u} hz := by
    rw [htid]
    cases hu : (S.proc u.1).isReady with
    | true => exact h.zombie ((hlasts u hu).zombie.mp hz)
    | false => exact .inl (h.off hu)
  joined {u} hj := by
    rw [htid] at hj
    cases hu : (S.proc u.1).isReady with
    | true => exact (hlasts u hu).zombie.mpr (h.joined hj)
    | false => exact absurd (hj.symm.trans (h.off hu)) (by decide)
  used hu hn := h.used hu ((hlasts _ (h.ready hu)).unused hn)
  ready hu := (hready _ (h.ready hu)).1
  off {u} hoff := by
    rw [htid]
    refine h.off (Bool.eq_false_iff.mpr fun hon => ?_)
    rw [(hready _ hon).1] at hoff
    cases hoff
  named hu := by
    have hr := h.ready hu
    refine (h.named hu).imp (hready _ hr).2 fun ⟨h₁, h₂⟩ => ?_
    exact ⟨(htid _).trans h₁, (hlasts _ hr).live h₂⟩
  asleep hu hcode h0 := by
    obtain ⟨t, ht, hlive, hchan⟩ := hasleep _ _ _ hu hcode h0
    exact ⟨t, ht, (hlasts (_, t) (h.ready ht)).live hlive, hchan⟩

section Done

variable {e : KOp} {k : e.Ans → KProg Unit} {ch : Choice} {r : e.Ans}

theorem asleep_of_done (h : Tracked S I) (ha : Answered S S' G c s ch e k r) {u : Slot}
    {tid : Int32} {k' : Int32 → KProg Unit} (hu : (S'.thread u).state = .sleeping)
    (hk : update S'.code s (k r) u = .vis (.threadJoin tid) k') (h0 : tid ≠ 0) :
    ∃ t, I (u.1, t) = some tid ∧ (S.thread (u.1, t)).state.live = true ∧
      (S'.thread u).chan = .thread (u.1, t) := by
  have hst : e.starts s ≠ some u := by
    intro hst
    cases (starts_runnable ha.perf hst).symm.trans hu
  have hold : (S.thread u).state = .sleeping := by
    obtain hsame | ⟨-, hrun⟩ | ⟨-, hoff⟩ := ha.thread hst
    · exact hsame.symm.trans hu
    · cases hrun.symm.trans hu
    · simp [hu] at hoff
  have hus : u ≠ s := by
    rintro rfl
    cases (ha.inv.running ha.cpu).symm.trans hold
  rw [update_of_ne hus, ha.code_kept (by simp [hold])] at hk
  rw [(marks_of_done ha.perf).chan]
  exact h.asleep hold hk h0

theorem of_keepsTids (h : Tracked S I) (ha : Answered S S' G c s ch e k r) (he : e.keepsTids = true) :
    Tracked { S' with code := update S'.code s (k r) } I := by
  have hm := marks_of_done ha.perf
  refine h.keep (hm.nexttid ?_) (hm.tid he) (fun p hp => ⟨?_, hm.killed p ?_⟩) (fun u hu => ?_)
    fun u tid k' hu hk h0 => h.asleep_of_done ha hu hk h0
  · rintro rfl
    cases he
  · exact ha.ready hp
  · intro hz
    simp [Entry.isReady, hz] at hp
  · have := (ha.turn hu).lasts
    exact ⟨this.zombie, this.live, this.unused⟩

end Done

section Special

variable {ch : Choice}

theorem lt_add_one {n : Int32} (h : 0 < n) (h' : 0 < n + 1) : n < n + 1 := by
  have hle := n.le_toInt
  have hlt := n.toInt_lt
  rw [Int32.lt_iff_toInt_lt] at *
  rw [Int32.toInt_add, Int.bmod_def] at *
  simp only [Int32.toInt_zero, Int32.toInt_one] at *
  split at h' <;> omega

theorem create (h : Tracked S I) {v : Slot} (hfresh : 0 < S.nexttid)
    (hun : (S.thread v).state = .unused) (hready : (S.proc v.1).isReady = true)
    (hthread : S'.thread =
      update S.thread v { S.thread v with state := .embryo, tid := S.nexttid })
    (hn : S'.nexttid = S.nexttid + 1) (hproc : S'.proc = S.proc)
    (hasleep : ∀ (u : Slot) tid k, (S'.thread u).state = .sleeping →
      S'.code u = .vis (.threadJoin tid) k → tid ≠ 0 →
      ∃ t, I (u.1, t) = some tid ∧ (S.thread (u.1, t)).state.live = true ∧
        (S'.thread u).chan = .thread (u.1, t)) :
    Tracked S' (update I v (some S.nexttid)) := by
  have hself : S'.thread v = { S.thread v with state := .embryo, tid := S.nexttid } := by
    rw [hthread, update_self]
  have hne : ∀ {u}, u ≠ v → S'.thread u = S.thread u := fun hu => by
    rw [hthread, update_of_ne hu]
  refine ⟨fun {u i} hu => ?_, fun {u w i} hu hw => ?_, fun u => ?_, fun {u} hz => ?_,
    fun {u} hj => ?_, fun {u i} hu => ?_, fun {u i} hu => ?_, fun {u} hoff => ?_,
    fun {u i} hu => ?_, fun {u tid k} hu hk h0 => ?_⟩
  · rw [hn]
    by_cases huv : u = v
    · rw [huv, update_self] at hu
      cases hu
      exact ⟨hfresh, fun hpos => lt_add_one hfresh hpos⟩
    · rw [update_of_ne huv] at hu
      obtain ⟨hpos, hlt⟩ := h.ids hu
      exact ⟨hpos, fun hpos' => Int32.lt_trans (hlt hfresh) (lt_add_one hfresh hpos')⟩
  · -- nobody has the next identifier
    have hnew : ∀ {w}, I w ≠ some S.nexttid := fun hI => Int32.lt_irrefl ((h.ids hI).2 hfresh)
    by_cases huv : u = v <;> by_cases hwv : w = v
    · rw [huv, hwv]
    · rw [huv, update_self] at hu
      rw [update_of_ne hwv, ← hu] at hw
      exact absurd hw hnew
    · rw [hwv, update_self] at hw
      rw [update_of_ne huv, ← hw] at hu
      exact absurd hu hnew
    · rw [update_of_ne huv] at hu
      rw [update_of_ne hwv] at hw
      exact h.uniq hu hw
  · by_cases huv : u = v
    · rw [huv, hself, update_self]
      exact .inr (.inr rfl)
    · rw [hne huv, update_of_ne huv]
      exact h.plain u
  · by_cases huv : u = v
    · rw [huv, hself] at hz
      cases hz
    · rw [hne huv] at hz ⊢
      exact h.zombie hz
  · by_cases huv : u = v
    · rw [huv, hself] at hj
      rw [show S.nexttid = -1 from hj] at hfresh
      exact absurd hfresh (by decide)
    · rw [hne huv] at hj ⊢
      exact h.joined hj
  · by_cases huv : u = v
    · simp [huv, hself]
    · rw [update_of_ne huv] at hu
      rw [hne huv]
      exact h.used hu
  · rw [hproc]
    by_cases huv : u = v
    · rw [huv]
      exact hready
    · rw [update_of_ne huv] at hu
      exact h.ready hu
  · rw [hproc] at hoff
    have huv : u ≠ v := by
      rintro rfl
      rw [hready] at hoff
      cases hoff
    rw [hne huv]
    exact h.off hoff
  · rw [hproc]
    by_cases huv : u = v
    · rw [huv, update_self] at hu
      cases hu
      rw [huv, hself]
      exact .inr ⟨rfl, rfl⟩
    · rw [update_of_ne huv] at hu
      rw [hne huv]
      exact h.named hu
  · obtain ⟨t, hI, hlive, hchan⟩ := hasleep u tid k hu hk h0
    have htv : (u.1, t) ≠ v := by
      rintro rfl
      exact h.used hI hun
    refine ⟨t, by rwa [update_of_ne htv], ?_, hchan⟩
    rwa [hne htv]

theorem of_threadAlloc {k : Option TId → KProg Unit} {r : Option TId} (h : Tracked S I)
    (ha : Answered S S' G c s ch .threadAlloc k r) (hfresh : 0 < S.nexttid) :
    Tracked { S' with code := update S'.code s (k r) } (S.rename s I .threadAlloc) := by
  have hasleep : ∀ (u : Slot) (tid : Int32) (k' : Int32 → KProg Unit),
      (S'.thread u).state = .sleeping →
      update S'.code s (k r) u = .vis (.threadJoin tid) k' → tid ≠ 0 →
      ∃ t, I (u.1, t) = some tid ∧ (S.thread (u.1, t)).state.live = true ∧
        (S'.thread u).chan = .thread (u.1, t) :=
    fun _ _ _ => h.asleep_of_done ha
  cases (withRow_done ha.perf).2
  simp only [rename]
  split
  · rename_i ht
    rw [threadAlloc_none ht] at hasleep ⊢
    exact h.keep rfl (fun _ => rfl) (fun p hp => ⟨hp, id⟩) (fun u _ => .of_eq rfl) hasleep
  · rename_i t ht
    obtain ⟨hun, hthread, hn, hproc⟩ := threadAlloc_some ht
    have hready := ha.inv.ready (ha.inv.running_live ha.cpu)
    exact h.create (v := (s.1, t)) hfresh hun hready hthread hn hproc hasleep

theorem of_threadJoin {tid : Int32} {k : Int32 → KProg Unit} {r : Int32} (h : Tracked S I)
    (ha : Answered S S' G c s ch (.threadJoin tid) k r) :
    Tracked { S' with code := update S'.code s (k r) } I := by
  have hperf := ha.perf
  have hm := marks_of_done hperf
  have hq := (perform_frame hperf).quiet rfl
  have hn := hm.nexttid (by simp)
  -- what is written is -1, into the slot of a zombie
  have htid : ∀ u, (S'.thread u).tid = (S.thread u).tid ∨
      (S.thread u).state = .zombie ∧ (S'.thread u).tid = -1 := by
    intro u
    obtain ⟨-, hperf'⟩ := withRow_done hperf
    split at hperf'
    · rename_i t hz
      cases hperf'
      by_cases hut : u = (s.1, t)
      · refine .inr ⟨?_, by simp [hut]⟩
        rw [hut]
        exact (zombieThread_spec hz).2
      · exact .inl (by simp [hut])
    · cases hperf'
      exact .inl rfl
    · split at hperf' <;> cases hperf'
      exact .inl rfl
  have hlasts : ∀ u, Lasts S S' u := fun u => .of_quiet hq u
  refine ⟨fun {u i} hu => ?_, h.uniq, fun u => ?_, fun {u} hz => ?_, fun {u} hj => ?_,
    fun {u i} hu hun => ?_, fun {u i} hu => ?_, fun {u} hoff => ?_, fun {u i} hu => ?_,
    fun {u tid' k'} hu hk h0 => ?_⟩
  · dsimp only
    rw [hn]
    exact h.ids hu
  · obtain heq | ⟨-, heq⟩ := htid u
    · dsimp only
      rw [heq]
      exact h.plain u
    · exact .inr (.inl heq)
  · obtain heq | ⟨-, heq⟩ := htid u
    · dsimp only
      rw [heq]
      exact h.zombie ((hlasts u).zombie.mp hz)
    · exact .inr heq
  · obtain heq | ⟨hz, -⟩ := htid u
    · exact (hlasts u).zombie.mpr (h.joined (heq.symm.trans hj))
    · exact (hlasts u).zombie.mpr hz
  · exact h.used hu ((hlasts u).unused hun)
  · dsimp only
    rw [Entry.isReady_congr (hq.state u.1)]
    exact h.ready hu
  · dsimp only at hoff ⊢
    rw [Entry.isReady_congr (hq.state u.1)] at hoff
    obtain heq | ⟨-, heq⟩ := htid u
    · rw [heq]
      exact h.off hoff
    · -- a slot that is found belongs to the process that joins
      obtain ⟨-, hperf'⟩ := withRow_done hperf
      have hsready := ha.inv.ready (ha.inv.running_live ha.cpu)
      split at hperf'
      · rename_i t hz
        cases hperf'
        by_cases hut : u = (s.1, t)
        · rw [hut, hsready] at hoff
          cases hoff
        · rw [setThread_ne _ hut]
          exact h.off hoff
      · cases hperf'
        exact h.off hoff
      · split at hperf' <;> cases hperf'
        exact h.off hoff
  · have hr := h.ready hu
    have hnz : (S.proc u.1).state ≠ .zombie := fun hz => by simp [Entry.isReady, hz] at hr
    obtain hk | ⟨htid', hlive⟩ := h.named hu
    · exact .inl (hm.killed _ hnz hk)
    · refine .inr ⟨?_, (hlasts u).live hlive⟩
      obtain heq | ⟨hz, -⟩ := htid u
      · exact heq.trans htid'
      · simp [hz] at hlive
  · obtain ⟨t, hI, hlive, hchan⟩ := h.asleep_of_done ha hu hk h0
    exact ⟨t, hI, (hlasts _).live hlive, hchan⟩

theorem of_sleep (h : Tracked S I) (hi : Inv S G) (hc : (S.cpu c).thread = some s) {e : KOp}
    {k : e.Ans → KProg Unit} (hcode : S.code s = .vis e k) {chan : Chan}
    (hperf : S.perform c s ch e = some (.sleep chan)) :
    Tracked (S.sleepOn c s chan ch.depth) I := by
  have hne : ∀ u, u ≠ s → (S.sleepOn c s chan ch.depth).thread u = S.thread u := by
    intro u hus
    simp [sleepOn, Kernel.leave, hus]
  have hs : (S.sleepOn c s chan ch.depth).thread s =
      { (S.sleepOn c s chan ch.depth).thread s with
        state := .sleeping, chan := chan, tid := (S.thread s).tid } := by
    simp [sleepOn, Kernel.leave]
  refine h.keep rfl (fun u => ?_) (fun p hp => ⟨hp, id⟩) (fun u _ => ?_)
    fun u tid k' hu hk h0 => ?_
  · by_cases hus : u = s
    · rw [hus, hs]
    · rw [hne u hus]
  · by_cases hus : u = s
    · rw [hus]
      exact .of_active (hi.running_active hc) (by rw [hs]; rfl)
    · exact .of_eq (by rw [hne u hus])
  · by_cases hus : u = s
    · subst hus
      have hk' : S.code u = .vis (.threadJoin tid) k' := hk
      rw [hcode] at hk'
      obtain ⟨rfl, -⟩ := Prog.vis.inj hk'
      -- the join has found a thread that is no zombie, in a process that is not killed
      simp only [perform, withRow] at hperf
      split at hperf
      · split at hperf
        · cases hperf
        · cases hperf
        · rename_i t hz hl
          split at hperf
          · cases hperf
          · rename_i hkilled
            cases hperf
            have hI := h.name_of_lastThread h0 hz hl
            refine ⟨t, hI, ?_, by rw [hs]⟩
            exact ((h.named hI).resolve_left hkilled).2
      · cases hperf
    · rw [hne u hus] at hu ⊢
      exact h.asleep hu hk h0

theorem threadExit_slots (hperf : S.perform c s ch .threadExit = some (.gone S')) :
    (S'.thread s).state = .zombie ∧ (S'.thread s).tid = 0 ∧
    (∀ u, u ≠ s → S'.thread u = if u.1 = s.1 then wake (.thread s) (S.thread u) else S.thread u) ∧
    S'.proc = S.proc ∧ S'.nexttid = S.nexttid ∧ S'.code = S.code := by
  obtain rfl := threadExit_gone hperf
  refine ⟨?_, ?_, fun u hus => ?_, rfl, rfl, rfl⟩
  · simp [Kernel.leave, threadGone, wakeupThreads, wake]
  · simp [Kernel.leave, threadGone, wakeupThreads, wake]
  · simp [Kernel.leave, threadGone, wakeupThreads, hus]

theorem of_threadExit (h : Tracked S I)
    (hperf : S.perform c s ch .threadExit = some (.gone S'))
    (hstay : ∀ i, I s = some i → (S.proc s.1).killed = true) : Tracked S' I := by
  obtain ⟨hz, h0, hne, hproc, hn, hcode⟩ := threadExit_slots hperf
  have hother : ∀ u, u ≠ s → (S'.thread u).tid = (S.thread u).tid ∧
      (S'.thread u).chan = (S.thread u).chan ∧ Lasts S S' u := by
    intro u hus
    have hu := hne u hus
    split at hu
    · obtain hst | ⟨hold, hnew⟩ := wake_state (.thread s) (S.thread u)
      · refine ⟨?_, ?_, .of_eq (by rw [hu, hst])⟩ <;> rw [hu, wake] <;> split <;> rfl
      · refine ⟨?_, ?_, .of_active (by simp [hold]) (by simp [hu, hnew])⟩ <;> rw [hu, wake] <;>
          split <;> rfl
    · exact ⟨by rw [hu], by rw [hu], .of_eq (by rw [hu])⟩
  refine ⟨fun {u i} hu => ?_, h.uniq, fun u => ?_, fun {u} hu => ?_, fun {u} hj => ?_,
    fun {u i} hu hun => ?_, fun {u i} hu => ?_, fun {u} hoff => ?_, fun {u i} hu => ?_,
    fun {u tid k} hu hk h0' => ?_⟩
  · rw [hn]
    exact h.ids hu
  · by_cases hus : u = s
    · rw [hus]
      exact .inl h0
    · rw [(hother u hus).1]
      exact h.plain u
  · by_cases hus : u = s
    · rw [hus]
      exact .inl h0
    · rw [(hother u hus).1]
      exact h.zombie ((hother u hus).2.2.zombie.mp hu)
  · by_cases hus : u = s
    · rw [hus]
      exact hz
    · rw [(hother u hus).1] at hj
      exact (hother u hus).2.2.zombie.mpr (h.joined hj)
  · by_cases hus : u = s
    · rw [hus, hz] at hun
      cases hun
    · exact h.used hu ((hother u hus).2.2.unused hun)
  · rw [hproc]
    exact h.ready hu
  · rw [hproc] at hoff
    by_cases hus : u = s
    · rw [hus]
      exact h0
    · rw [(hother u hus).1]
      exact h.off hoff
  · rw [hproc]
    by_cases hus : u = s
    · rw [hus] at hu ⊢
      exact .inl (hstay i hu)
    · obtain ⟨htid, -, hlasts⟩ := hother u hus
      exact (h.named hu).imp_right fun hu => ⟨htid.trans hu.1, hlasts.live hu.2⟩
  · have hus : u ≠ s := by
      rintro rfl
      cases hz.symm.trans hu
    obtain ⟨-, hchan, -⟩ := hother u hus
    have hold : (S.thread u).state = .sleeping := by
      have hu' := hne u hus
      rw [hu'] at hu
      split at hu
      · obtain hst | ⟨hst, -⟩ := wake_state (.thread s) (S.thread u)
        · exact hst.symm.trans hu
        · exact hst
      · exact hu
    rw [hcode] at hk
    obtain ⟨t, hI, hlive, hc'⟩ := h.asleep hold hk h0'
    -- whoever slept on the thread has been woken up
    have hts : (u.1, t) ≠ s := by
      intro hts
      have hwoken := hne u hus
      rw [if_pos (congrArg Prod.fst hts), wake, if_pos ⟨hold, by rw [hc', hts]⟩] at hwoken
      rw [hwoken] at hu
      cases hu
    exact ⟨t, hI, (hother _ hts).2.2.live hlive, hchan.trans hc'⟩

theorem of_exitDone (h : Tracked S I) (hi : Inv S G)
    (hperf : S.perform c s ch .exitDone = some (.gone S')) :
    Tracked S' (S.rename s I .exitDone) := by
  obtain ⟨hex, -, -, hcode⟩ := exitDone_gone hperf
  have hmarks : S'.nexttid = S.nexttid ∧ (∀ u : Slot, u.1 = s.1 → (S'.thread u).tid = 0) ∧
      (∀ u : Slot, u.1 ≠ s.1 → (S'.thread u).tid = (S.thread u).tid ∧
        (S'.thread u).chan = (S.thread u).chan) ∧
      ∀ p, (S'.proc p).killed = (S.proc p).killed := by
    cases (withRow_gone hperf).2
    refine ⟨rfl, fun u hu => ?_, fun u hu => ?_, fun p => ?_⟩
    · by_cases hus : u = s
      · simp [Kernel.leave, exitTables, hus]
      · simp [Kernel.leave, exitTables, hus, hu]
    · have hus : u ≠ s := fun he => hu (by rw [he])
      simp only [Kernel.leave, exitTables, setCpu_thread, setThread_ne _ hus, if_neg hu, reparent]
      exact ⟨wakeup1_tid _ _ _, wakeup1_chan _ _ _⟩
    · by_cases hp : p = s.1
      · subst hp
        simp only [Kernel.leave, exitTables, setCpu_proc, setThread_proc, setProc_self, reparent]
        split_ifs <;> rfl
      · simp only [Kernel.leave, exitTables, setCpu_proc, setThread_proc, setProc_ne _ hp, reparent]
        split_ifs <;> rfl
  obtain ⟨hn, htid, hother, hkilled⟩ := hmarks
  have hI : ∀ {u i}, S.rename s I .exitDone u = some i → u.1 ≠ s.1 ∧ I u = some i := by
    intro u i hu
    simp only [rename] at hu
    split at hu
    · cases hu
    · exact ⟨‹_›, hu⟩
  have hI' : ∀ {u : Slot}, u.1 ≠ s.1 → S.rename s I .exitDone u = I u := fun hu => if_neg hu
  have hlasts : ∀ {u : Slot}, u.1 ≠ s.1 → Lasts S S' u := by
    intro u hus
    obtain hst | ⟨hold, hnew⟩ := hex.wake hus
    · exact .of_eq hst
    · exact .of_active (by simp [hold]) (by simp [hnew])
  have hready : ∀ {p}, p ≠ s.1 → (S.proc p).isReady = true → (S'.proc p).isReady = true := by
    intro p hp hr
    have hact : (S.proc p).state.active = true := by
      obtain hst | hst := (Entry.isReady_iff _).mp hr <;> simp [hst]
    obtain ⟨t, ht⟩ := hi.peopled hact
    rw [Entry.isReady_congr (hex.state_of_live hi.toTables hp ht)]
    exact hr
  refine ⟨fun hu => ?_, fun hu hv => h.uniq (hI hu).2 (hI hv).2, fun u => ?_, fun {u} hz => ?_,
    fun {u} hj => ?_, fun hu hun => ?_, fun hu => hready (hI hu).1 (h.ready (hI hu).2),
    fun {u} hoff => ?_, fun hu => ?_, fun {u tid k} hu hk h0 => ?_⟩
  · rw [hn]
    exact h.ids (hI hu).2
  · by_cases hus : u.1 = s.1
    · exact .inl (htid u hus)
    · rw [hI' hus, (hother u hus).1]
      exact h.plain u
  · by_cases hus : u.1 = s.1
    · exact .inl (htid u hus)
    · rw [(hother u hus).1]
      exact h.zombie ((hlasts hus).zombie.mp hz)
  · by_cases hus : u.1 = s.1
    · exact hex.thread hus
    · rw [(hother u hus).1] at hj
      exact (hlasts hus).zombie.mpr (h.joined hj)
  · exact h.used (hI hu).2 ((hlasts (hI hu).1).unused hun)
  · by_cases hus : u.1 = s.1
    · exact htid u hus
    · rw [(hother u hus).1]
      refine h.off (Bool.eq_false_iff.mpr fun hon => ?_)
      rw [hready hus hon] at hoff
      cases hoff
  · obtain ⟨hus, hu⟩ := hI hu
    rw [hkilled]
    exact (h.named hu).imp_right fun hu =>
      ⟨(hother _ hus).1.trans hu.1, (hlasts hus).live hu.2⟩
  · have hus : u.1 ≠ s.1 := by
      intro hus
      cases (hex.thread hus).symm.trans hu
    have hold : (S.thread u).state = .sleeping := by
      obtain hst | ⟨hst, -⟩ := hex.wake hus
      · exact hst.symm.trans hu
      · exact hst
    rw [hcode] at hk
    obtain ⟨t, ht, hlive, hchan⟩ := h.asleep hold hk h0
    exact ⟨t, (hI' (u := (u.1, t)) hus).trans ht, (hlasts (u := (u.1, t)) hus).live hlive,
      (hother u hus).2.trans hchan⟩

end Special

end Tracked

/-! ## Runs -/

theorem names_run {I : Names} {ch : Choice} {e : KOp} {k : e.Ans → KProg Unit}
    (hc : (S.cpu c).thread = some s) (hcode : S.code s = .vis e k) :
    S.names I (.run c ch) = S.rename s I e := by
  simp [names, nextOp_eq hc hcode]

theorem rename_of_keepsTids {I : Names} {e : KOp} (he : e.keepsTids = true) (hx : e ≠ .exitDone) :
    S.rename s I e = I := by
  cases e with
  | threadAlloc | threadJoin => cases he
  | exitDone => exact absurd rfl hx
  | _ => rfl

theorem Fresh.nexttid {I : Names} {ch : Choice} {k : Option TId → KProg Unit}
    (h : Fresh (S, I) (.run c ch)) (hc : (S.cpu c).thread = some s)
    (hcode : S.code s = .vis .threadAlloc k) : 0 < S.nexttid := by
  simpa [Fresh, fresh, nextOp_eq hc hcode] using h

theorem stays_exit {I : Names} {ch : Choice} {k : Unit → KProg Unit}
    (hc : (S.cpu c).thread = some s) (hcode : S.code s = .vis .threadExit k) :
    Stays (S, I) (.run c ch) ↔ ∀ i, I s = some i → (S.proc s.1).killed = true := by
  simp only [Stays, Kernel.stays, nextOp_eq hc hcode, Bool.or_eq_true, Option.isNone_iff_eq_none]
  constructor
  · rintro (hnone | hk) i hi
    · rw [hnone] at hi
      cases hi
    · exact hk
  · intro h
    cases hi : I s with
    | none => exact .inl rfl
    | some i => exact .inr (h i hi)

theorem stays_of_ne {I : Names} {ch : Choice} {e : KOp} {k : e.Ans → KProg Unit}
    (hc : (S.cpu c).thread = some s) (hcode : S.code s = .vis e k) (he : e ≠ .threadExit) :
    Stays (S, I) (.run c ch) := by
  simp only [Stays, Kernel.stays, nextOp_eq hc hcode]
  cases e with
  | threadExit => exact absurd rfl he
  | _ => rfl

/-- Threads keep their identifiers in steps that are orderly and fresh and in which created
threads stay. -/
theorem Tracked.step {I : Names} {G' : Slot → Ctx} {a : Act ncpu} (h : Tracked S I) (hi : Inv S G)
    (hok : InOrder (S, I) a) (hstay : Stays (S, I) a) (hm : Moves S G a S' G') :
    Tracked S' (S.names I a) := by
  cases hm with
  | schedule hc hrun =>
    rename_i c s
    have hs := runnable_of_canRun hrun
    have hne : ∀ u, u ≠ s → (S.dispatch c s).thread u = S.thread u := by
      intro u hus
      simp [dispatch, hus]
    refine h.keep rfl (fun u => ?_) (fun p hp => ⟨hp, id⟩) (fun u _ => ?_)
      fun u tid k hu hk h0 => ?_
    · by_cases hus : u = s
      · simp [dispatch, hus]
      · rw [hne u hus]
    · by_cases hus : u = s
      · exact .of_active (by simp [hus, hs]) (by simp [dispatch, hus])
      · exact .of_eq (by rw [hne u hus])
    · have hus : u ≠ s := by
        rintro rfl
        simp [dispatch] at hu
      rw [hne u hus] at hu ⊢
      exact h.asleep hu hk h0
  | done hc hcode hperf =>
    rename_i c s ch e k r S'
    rw [names_run hc hcode]
    have ha : Answered S S' G c s ch e k r := ⟨hi, hc, hcode, hperf, hok.1.hasOthers hc hcode⟩
    by_cases he : e.keepsTids = true
    · rw [rename_of_keepsTids he ?_]
      · exact h.of_keepsTids ha he
      · rintro rfl
        exact Empty.elim r
    · cases e with
      | threadAlloc => exact h.of_threadAlloc ha (hok.2.nexttid hc hcode)
      | threadJoin tid =>
        rw [h.rename_join]
        exact h.of_threadJoin ha
      | _ => exact absurd rfl he
  | sleep hc hcode hperf =>
    rename_i c s ch e k chan
    rw [names_run hc hcode]
    have hsame : S.rename s I e = I := by
      cases e with
      | threadAlloc | exitDone =>
        simp only [perform, withRow] at hperf
        split at hperf <;> cases hperf
      | threadJoin tid => exact h.rename_join s tid
      | _ => rfl
    rw [hsame]
    exact h.of_sleep hi hc hcode hperf
  | gone hc hcode hperf =>
    rw [names_run hc hcode]
    obtain rfl | rfl := gone_cases hperf
    · exact h.of_threadExit hperf ((stays_exit hc hcode).mp hstay)
    · exact h.of_exitDone hi hperf
  | enter hc hcode =>
    rename_i c s t
    refine h.keep rfl (fun _ => rfl) (fun p hp => ⟨hp, id⟩) (fun u _ => .of_eq rfl)
      fun u tid k hu hk h0 => ?_
    have hus : u ≠ s := by
      rintro rfl
      cases (hi.running hc).symm.trans hu
    exact h.asleep hu (by simpa [hus] using hk) h0
  | tick hc hcode hs =>
    rename_i c s depth e k
    have hne : ∀ u, u ≠ s → (S.yield c s depth).thread u = S.thread u := by
      intro u hus
      simp [yield, Kernel.leave, hus]
    refine h.keep rfl (fun u => ?_) (fun p hp => ⟨hp, id⟩) (fun u _ => ?_)
      fun u tid k hu hk h0 => ?_
    · by_cases hus : u = s
      · simp [yield, Kernel.leave, hus]
      · rw [hne u hus]
    · by_cases hus : u = s
      · exact .of_active (by simp [hus, hs]) (by simp [yield, Kernel.leave, hus])
      · exact .of_eq (by rw [hne u hus])
    · have hus : u ≠ s := by
        rintro rfl
        simp [yield, Kernel.leave] at hu
      rw [hne u hus] at hu ⊢
      exact h.asleep hu hk h0
  | intr =>
    rename_i chan
    have hq := quiet_wakeup1 S chan
    refine h.keep rfl (wakeup1_tid S chan) (fun p hp => ⟨hp, id⟩) (fun u _ => .of_quiet hq u)
      fun u tid k hu hk h0 => ?_
    rw [wakeup1_chan]
    refine h.asleep ?_ hk h0
    obtain hst | ⟨hst, -⟩ := hq.thread u
    · exact hst.symm.trans hu
    · exact hst

/-- **A created thread that exits is forgotten**: joining it does not return its identifier,
although another thread could still join it. -/
theorem Tracked.forgets {I : Names} {ch : Choice} (h : Tracked S I) (hi : Inv S G)
    (hperf : S.perform c s ch .threadExit = some (.gone S')) (hother : S.hasOthers s = true)
    {i : Int32} (hI : I s = some i) (hk : (S.proc s.1).killed = false) : ¬JoinsRight (S', I) := by
  intro hj
  obtain ⟨hz, h0, hne, hproc, -, -⟩ := threadExit_slots hperf
  obtain ⟨t, ht, hlive⟩ := hasOthers_iff.mp hother
  have htid : ∀ u, u ≠ s → (S'.thread u).tid = (S.thread u).tid := by
    intro u hus
    rw [hne u hus]
    split
    · rw [wake]
      split <;> rfl
    · rfl
  have hts : (s.1, t) ≠ s := fun he => ht (congrArg Prod.snd he)
  have hlive' : (S'.thread (s.1, t)).state.live = true := by
    rw [hne _ hts, if_pos rfl]
    obtain hst | ⟨-, hst⟩ := wake_state (.thread s) (S.thread (s.1, t))
    · rw [hst]
      exact hlive
    · simp [hst]
  have hright := hj.named (s.1, t) s.2 i c ch hlive' (Ne.symm ht) hI (by rw [hproc]; exact hk)
  rw [if_neg (by simp [hz])] at hright
  obtain ⟨S'', hright⟩ := hright
  obtain ⟨hi0, hi1⟩ := h.ids_ne hI
  -- no slot has the identifier any more
  have hno : ∀ t', (S'.thread (s.1, t')).tid ≠ i := by
    intro t' hi'
    by_cases hts' : (s.1, t') = s
    · rw [hts', h0] at hi'
      exact hi0 hi'.symm
    · rw [htid _ hts'] at hi'
      obtain hp | hp | hp := h.plain (s.1, t')
      · exact hi0 (hi'.symm.trans hp)
      · exact hi1 (hi'.symm.trans hp)
      · rw [hi'] at hp
        exact hts' (h.uniq hp hI)
  have hzn : S'.zombieThread s.1 i = none := by
    cases hzt : S'.zombieThread s.1 i with
    | none => rfl
    | some t' => exact absurd (zombieThread_spec hzt).1 (hno t')
  have hln : S'.lastThread s.1 i = none := by
    cases hlt : S'.lastThread s.1 i with
    | none => rfl
    | some t' => exact absurd (lastThread_tid hlt) (hno t')
  have hrow : (S'.proc (s.1, t).1).threads = true := by
    rw [hproc]
    exact hi.row (Entry.live_of_isReady (hi.ready (s := (s.1, t)) hlive))
  rw [perform_join_none hrow hzn hln] at hright
  simp only [Option.some.injEq, Outcome.done.injEq] at hright
  exact hi1 hright.1.symm

theorem Tracked.of_booted (h : Booted S) : Tracked S fun _ => none := by
  obtain ⟨k, d, avail, -, -, -, rfl⟩ := h
  have htid : ∀ u, ((boot ncpu k d avail).thread u).tid = 0 := by
    intro u
    by_cases hu : u = (0, 0) <;> simp [boot, hu, KThread.empty]
  have hsleep : ∀ u, ((boot ncpu k d avail).thread u).state ≠ .sleeping := by
    intro u
    by_cases hu : u = (0, 0) <;> simp [boot, hu, KThread.empty]
  refine ⟨fun hu => ?_, fun hu => ?_, fun u => .inl (htid u), fun _ => .inl (htid _),
    fun {u} hj => ?_, fun hu => ?_, fun hu => ?_, fun _ => htid _, fun hu => ?_,
    fun hu => absurd hu (hsleep _)⟩
  · cases hu
  · cases hu
  · exact absurd (hj.symm.trans (htid u)) (by decide)
  · cases hu
  · cases hu
  · cases hu

theorem tracked_of_reach {x : Kernel ncpu × Names} (h : Reach stepNamed Joinable Unnamed x) :
    ∃ G, Inv x.1 G ∧ Tracked x.1 x.2 := by
  refine Reach.invariant (I := fun x => ∃ G, Inv x.1 G ∧ Tracked x.1 x.2) ?_ ?_ h
  · rintro ⟨S, I⟩ ⟨hS, rfl⟩
    exact ⟨_, .of_booted hS, .of_booted hS⟩
  · rintro ⟨S, I⟩ a x' ⟨G, hi, ht⟩ ⟨hok, hstay⟩ hs
    simp only [stepNamed] at hs
    split at hs
    · cases hs
    · cases hs
    · rename_i S' hs'
      cases hs
      obtain ⟨G', hm⟩ := Moves.of_step G hs'
      exact ⟨G', hi.step hok.1 hm, ht.step hi hok hstay hm⟩

/-- **`kthread_join` agrees with the lives of threads.**  In every state that joinable steps
reach, joining a created thread sleeps on it while it lives and returns its identifier once
it has exited, joining any other identifier but 0 returns -1, and whoever sleeps in a join
sleeps on a living thread; and the next orderly and fresh step keeps this if and only if
created threads stay in it. -/
theorem join_agrees {x : Kernel ncpu × Names} (h : Reach stepNamed Joinable Unnamed x) :
    JoinsRight x ∧ ∀ a x', InOrder x a → stepNamed x a = some (.ok x') →
      (JoinsRight x' ↔ Stays x a) := by
  obtain ⟨G, hi, ht⟩ := tracked_of_reach h
  obtain ⟨S, I⟩ := x
  refine ⟨ht.joinsRight hi.toTables, fun a x' hok hs => ?_⟩
  simp only [stepNamed] at hs
  split at hs
  · cases hs
  · cases hs
  rename_i S' hs'
  cases hs
  obtain ⟨G', hm⟩ := Moves.of_step G hs'
  have hi' := hi.step hok.1 hm
  refine ⟨fun hj => ?_, fun hstay => (ht.step hi hok hstay hm).joinsRight hi'.toTables⟩
  cases hm with
  | schedule | enter | tick | intr => rfl
  | sleep hc hcode hperf =>
    refine stays_of_ne hc hcode ?_
    rintro rfl
    simp only [perform, withRow] at hperf
    split at hperf
    · split at hperf <;> cases hperf
    · cases hperf
  | done hc hcode hperf =>
    refine stays_of_ne hc hcode ?_
    rintro rfl
    exact Answered.not_last ⟨hi, hc, hcode, hperf, hok.1.hasOthers hc hcode⟩
  | gone hc hcode hperf =>
    obtain rfl | rfl := gone_cases hperf
    · refine (stays_exit hc hcode).mpr fun i hI => ?_
      by_contra hk
      rw [names_run hc hcode] at hj
      exact ht.forgets hi hperf (hok.1.hasOthers hc hcode rfl) hI (by simpa using hk) hj
    · exact stays_of_ne hc hcode (by simp)

/-- The start of the runs below. -/
def unnamed : Kernel 2 × Names := (booted, fun _ => none)

theorem unnamed_unnamed : Unnamed unnamed := ⟨booted_booted, rfl⟩

/-- The first process creates a thread, which comes to user space on the other processor. -/
def threadMade : List (Act 2) :=
  initRuns ++ calls cpu0 (.kthreadCreate 4096) 6 ++ [.schedule cpu1 (0, 1), go cpu1]

set_option maxRecDepth 10000 in
/-- The first thread joins the one it has created, which is alive, and sleeps. -/
theorem join_agrees_sleepsOnLiving :
    ∃ x : Kernel 2 × Names, Reach stepNamed Joinable Unnamed x ∧
      (x.1.thread (0, 0)).state = .sleeping ∧ x.2 (0, 1) = some 1 ∧ JoinsRight x := by
  have hm : Meets stepNamed Joinable unnamed (threadMade ++ calls cpu0 (.kthreadJoin 1) 3) := by
    decide +kernel
  have he : endsIn stepNamed unnamed (threadMade ++ calls cpu0 (.kthreadJoin 1) 3)
      (fun x => (x.1.thread (0, 0)).state == .sleeping && x.2 (0, 1) == some 1) = true := by
    decide +kernel
  obtain ⟨x, hx, ht⟩ := Reach.of_endsIn unnamed_unnamed he hm
  rw [Bool.and_eq_true, beq_iff_eq, beq_iff_eq] at ht
  exact ⟨x, hx, ht.1, ht.2, (join_agrees hx).1⟩

/-- The thread on `c` is about to join `tid`, and will be told -1. -/
def Kernel.joinFails (S : Kernel 2) (c : Fin 2) (tid : Int32) : Bool :=
  match S.nextOp c with
  | some (s, .threadJoin i) => i == tid &&
      match S.perform c s ⟨0, [], 0⟩ (.threadJoin i) with
      | some (.done r _) => r == -1
      | _ => false
  | _ => false

set_option maxRecDepth 10000 in
/-- **An exited thread is not found.**  A thread is created and calls `kthread_exit`; the one
that created it joins it, in a process that has not been killed, and is told -1. -/
theorem join_misses_exited :
    ∃ x : Kernel 2 × Names, Reach stepNamed anyStep Unnamed x ∧ x.2 (0, 1) = some 1 ∧
      (x.1.thread (0, 1)).state = .zombie ∧ (x.1.proc 0).killed = false ∧
      x.1.joinFails cpu0 1 = true := by
  have he : endsIn stepNamed unnamed
      (threadMade ++ calls cpu1 .kthreadExit 3 ++ calls cpu0 (.kthreadJoin 1) 2)
      (fun x => x.2 (0, 1) == some 1 && (x.1.thread (0, 1)).state == .zombie &&
        !(x.1.proc 0).killed && x.1.joinFails cpu0 1) = true := by
    decide +kernel
  obtain ⟨x, hx, ht⟩ := Reach.of_endsIn unnamed_unnamed he
  simp only [Bool.and_eq_true, beq_iff_eq, Bool.not_eq_true'] at ht
  exact ⟨x, hx, ht.1.1.1, ht.1.1.2, ht.1.2, ht.2⟩

set_option maxRecDepth 10000 in
/-- **Joining 0 blocks.**  No thread has been created when the only thread of a process joins
0, and it sleeps. -/
theorem join_zero_sleeps :
    ∃ x : Kernel 2 × Names, Reach stepNamed Joinable Unnamed x ∧
      (x.1.thread (0, 0)).state = .sleeping ∧ (x.1.thread (0, 0)).chan = .thread (0, 15) ∧
      ∀ t, x.2 (0, t) = none := by
  have hm : Meets stepNamed Joinable unnamed (initRuns ++ calls cpu0 (.kthreadJoin 0) 3) := by
    decide +kernel
  have he : endsIn stepNamed unnamed (initRuns ++ calls cpu0 (.kthreadJoin 0) 3)
      (fun x => (x.1.thread (0, 0)).state == .sleeping &&
        (x.1.thread (0, 0)).chan == .thread (0, 15) && decide (∀ t, x.2 (0, t) = none)) = true := by
    decide +kernel
  obtain ⟨x, hx, ht⟩ := Reach.of_endsIn unnamed_unnamed he hm
  simp only [Bool.and_eq_true, beq_iff_eq, decide_eq_true_eq] at ht
  exact ⟨x, hx, ht.1.1, ht.1.2, ht.2⟩

/-- **Joining does not agree with the lives of threads**, neither when a thread has exited
nor when the identifier is 0. -/
theorem join_disagrees :
    (∃ x : Kernel 2 × Names, Reach stepNamed anyStep Unnamed x ∧ x.2 (0, 1) = some 1 ∧
      (x.1.thread (0, 1)).state = .zombie ∧ (x.1.proc 0).killed = false ∧
      x.1.joinFails cpu0 1 = true) ∧
    ∃ x : Kernel 2 × Names, Reach stepNamed Joinable Unnamed x ∧
      (x.1.thread (0, 0)).state = .sleeping ∧ (x.1.thread (0, 0)).chan = .thread (0, 15) ∧
      ∀ t, x.2 (0, t) = none :=
  ⟨join_misses_exited, join_zero_sleeps⟩

end Xv6.Proc
