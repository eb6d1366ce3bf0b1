import Xv6.Proc.ExitNotice

/-!
# Every child is reaped once

`fork` hands out the identifier of a new process, and `wait` hands it back when the process
has exited.  That no identifier comes back twice, and to whom it comes back, is a statement
about the past of a run, so the run is made to keep its annals (`stepRecorded`): which
processes were forked, which have called `exit`, and which were reaped by whom.  Processes
are known there by serial numbers, in the order in which `allocproc` took an entry for them;
the identifier of a process is its serial number, as far as an `int` can hold it.

Two processes have the same identifier only if there are `2 ^ 32` between them: `nextpid` is
an `int` and comes round.
-/

namespace Xv6.Proc

open Function List Transition Kernel

variable {ncpu : ℕ} {S S' : Kernel ncpu} {G G' : Slot → Ctx} {c : Fin ncpu} {s : Slot}
  {ch : Choice} {e : KOp} {k : e.Ans → KProg Unit} {r : e.Ans}

/-! ## The annals -/

/-- What happens to processes, by their serial numbers. -/
inductive Event where
  /-- A `fork` of process `n` returned `pid` for process `m`. -/
  | forked (n m : ℕ) (pid : Int32)
  | exited (n : ℕ)
  /-- A `wait` of process `n` returned `pid` for process `m`. -/
  | reaped (n m : ℕ) (pid : Int32)
  deriving DecidableEq

/-- The annals of a run. -/
structure Annals where
  born : ℕ
  /-- The serial number of the process that has an entry, or had it last. -/
  serial : PId → ℕ
  events : List Event

/-- The serial number of `init`. -/
def initSerial : ℕ := 1

/-- The event may happen after those of `past`. -/
def Event.Allowed : Event → List Event → Prop
  | forked _ m _, past => ∀ n pid, forked n m pid ∉ past
  | exited _, _ => True
  | reaped n m pid, past =>
    exited m ∈ past ∧ (∀ n' pid', reaped n' m pid' ∉ past) ∧
      ∃ p, forked p m pid ∈ past ∧ (n = p ∨ n = initSerial ∧ exited p ∈ past)

/-- Every event was allowed when it happened. -/
def Lawful : List Event → Prop
  | [] => True
  | e :: past => e.Allowed past ∧ Lawful past

/-- The event is about processes with serial numbers below `b`, and the identifiers are
theirs; nobody forks `init`. -/
def Event.Numbered (b : ℕ) : Event → Prop
  | forked n m pid => n < b ∧ m < b ∧ m ≠ initSerial ∧ pid = Int32.ofNat m
  | exited n => n < b
  | reaped _ m pid => m < b ∧ pid = Int32.ofNat m

/-- The process that a `wait` has reaped. -/
def Event.reapedSerial : Event → Option ℕ
  | reaped _ m _ => some m
  | _ => none

/-- The identifier that a `wait` has returned. -/
def Event.reapedPid : Event → Option Int32
  | reaped _ _ pid => some pid
  | _ => none

theorem Lawful.forked_unique {n n' m : ℕ} {pid pid' : Int32} : ∀ {es : List Event}, Lawful es →
    .forked n m pid ∈ es → .forked n' m pid' ∈ es → n = n'
  | [], _, h, _ => absurd h not_mem_nil
  | e :: past, hl, h, h' => by
    obtain rfl | hm := mem_cons.mp h <;> obtain he' | hm' := mem_cons.mp h'
    · injection he' with hn
      exact hn.symm
    · exact absurd hm' (hl.1 _ _)
    · subst he'
      exact absurd hm (hl.1 _ _)
    · exact hl.2.forked_unique hm hm'

theorem Lawful.nodup_reaped : ∀ {es : List Event}, Lawful es →
    (es.filterMap Event.reapedSerial).Nodup
  | [], _ => nodup_nil
  | .forked _ _ _ :: _, hl | .exited _ :: _, hl => hl.2.nodup_reaped
  | .reaped n m pid :: past, hl => by
    refine nodup_cons.mpr ⟨fun hm => ?_, hl.2.nodup_reaped⟩
    obtain ⟨e, he, hem⟩ := mem_filterMap.mp hm
    cases e with
    | forked | exited => cases hem
    | reaped n' m' pid' =>
      obtain rfl : m' = m := Option.some.inj hem
      exact hl.1.2.1 n' pid' he

theorem ofNat_inj {m m' : ℕ} (hm : m < 2 ^ 32) (hm' : m' < 2 ^ 32)
    (h : Int32.ofNat m = Int32.ofNat m') : m = m' := by
  have hbv : BitVec.ofNat 32 m = BitVec.ofNat 32 m' := congrArg Int32.toBitVec h
  have := congrArg BitVec.toNat hbv
  rwa [BitVec.toNat_ofNat, BitVec.toNat_ofNat, Nat.mod_eq_of_lt hm, Nat.mod_eq_of_lt hm'] at this

/-- As long as identifiers have not come round, none is returned by two calls of `wait`. -/
theorem Lawful.nodup_pids {es : List Event} (hl : Lawful es) {b : ℕ} (hb : b ≤ 2 ^ 32)
    (hn : ∀ e ∈ es, e.Numbered b) : (es.filterMap Event.reapedPid).Nodup := by
  have hmap : ∀ fs : List Event, (∀ e ∈ fs, e.Numbered b) →
      fs.filterMap Event.reapedPid = (fs.filterMap Event.reapedSerial).map Int32.ofNat ∧
        ∀ m ∈ fs.filterMap Event.reapedSerial, m < b := by
    intro fs
    induction fs with
    | nil => simp
    | cons e fs ih =>
      intro hfs
      obtain ⟨heq, hlt⟩ := ih fun e he => hfs e (mem_cons_of_mem _ he)
      have he := hfs e mem_cons_self
      cases e with
      | forked | exited => exact ⟨heq, hlt⟩
      | reaped n m pid =>
        refine ⟨?_, fun m' hm' => ?_⟩
        · show pid :: fs.filterMap Event.reapedPid = _
          rw [heq, he.2]
          rfl
        · obtain rfl | hm' := mem_cons.mp hm'
          · exact he.1
          · exact hlt m' hm'
  obtain ⟨heq, hlt⟩ := hmap es hn
  rw [heq]
  exact hl.nodup_reaped.map_on fun m hm m' hm' =>
    ofNat_inj ((hlt m hm).trans_le hb) ((hlt m' hm').trans_le hb)

theorem Event.Numbered.mono {b b' : ℕ} (hb : b ≤ b') {e : Event} (h : e.Numbered b) :
    e.Numbered b' := by
  cases e with
  | forked n m pid => exact ⟨h.1.trans_le hb, h.2.1.trans_le hb, h.2.2⟩
  | exited n => exact lt_of_lt_of_le h hb
  | reaped n m pid => exact ⟨h.1.trans_le hb, h.2⟩

namespace Annals

/-- An event is entered. -/
def enter (A : Annals) (e : Event) : Annals := { A with events := e :: A.events }

@[simp] theorem enter_serial (A : Annals) (e : Event) : (A.enter e).serial = A.serial := rfl

/-- The entry `q` is taken for a new process. -/
def take (A : Annals) (q : PId) : Annals :=
  { A with born := A.born + 1, serial := update A.serial q A.born }

/-- The annals after thread `s` has performed operation `e` and was answered `r`. -/
def record (A : Annals) (S : Kernel ncpu) (s : Slot) : (e : KOp) → e.Ans → Annals
  | .procAlloc, some q => A.take q
  | .forkDone np, pid => A.enter (.forked (A.serial s.1) (A.serial np) pid)
  | .exitEnter, _ => A.enter (.exited (A.serial s.1))
  | .wait, pid =>
    match S.zombieChild s.1 with
    | some q => A.enter (.reaped (A.serial s.1) (A.serial q) pid)
    | none => A
  | _, _ => A

end Annals

/-- The operations that are entered in the annals. -/
def KOp.recorded : KOp → Bool
  | .procAlloc | .forkDone _ | .exitEnter | .wait => true
  | _ => false

theorem Annals.record_eq (he : e.recorded = false) (A : Annals) (S : Kernel ncpu) (s : Slot)
    (r : e.Ans) : A.record S s e r = A := by
  cases e with
  | procAlloc | forkDone | exitEnter | wait => cases he
  | _ => rfl

/-- The annals after an action. -/
def Kernel.annals (S : Kernel ncpu) (A : Annals) : Act ncpu → Annals
  | .run c ch =>
    match S.nextOp c with
    | none => A
    | some (s, e) =>
      match S.perform c s ch e with
      | some (.done r _) => A.record S s e r
      | _ => A
  | _ => A

/-- One step of the kernel, and of the annals. -/
def stepRecorded {ncpu : ℕ} : StepFn (Kernel ncpu × Annals) (Act ncpu) Unit := fun x a =>
  match step x.1 a with
  | none => none
  | some (.error e) => some (.error e)
  | some (.ok S') => some (.ok (S', x.1.annals x.2 a))

/-- The annals at the start: there is `init`. -/
def Annals.start : Annals :=
  { born := 2, serial := update (fun _ => 0) 0 initSerial, events := [] }

/-- At the start nothing has happened. -/
def Unrecorded (x : Kernel ncpu × Annals) : Prop := Booted x.1 ∧ x.2 = .start

/-! ## The table and the annals -/

/-- Process `n` has forked `q`, and is its parent; or it has exited, and `q` was given to
`init`. -/
def ChildOf (S : Kernel ncpu) (A : Annals) (q : PId) (n : ℕ) : Prop :=
  (∃ x, (S.proc q).parent = some x ∧ (S.proc x).isReady = true ∧ A.serial x = n) ∨
    (S.proc q).parent = some S.initproc ∧ .exited n ∈ A.events ∧
      ∀ x, (S.proc x).state.live = true → A.serial x ≠ n

/-- The entry belongs to a process that `fork` has returned. -/
def Settled (S : Kernel ncpu) (q : PId) : Prop :=
  (S.proc q).state ≠ .unused ∧ (S.proc q).state ≠ .embryo

/-- **The process table and the annals agree.** -/
structure Chronicle (S : Kernel ncpu) (G : Slot → Ctx) (A : Annals) : Prop where
  next : S.nextpid = Int32.ofNat A.born
  pid : ∀ {q}, (S.proc q).state ≠ .unused → (S.proc q).pid = Int32.ofNat (A.serial q)
  born : 0 < A.born
  pos : ∀ {q}, (S.proc q).state ≠ .unused → 0 < A.serial q
  lt : ∀ {q}, (S.proc q).state ≠ .unused → A.serial q < A.born
  inj : ∀ {p q}, (S.proc p).state ≠ .unused → (S.proc q).state ≠ .unused →
    A.serial p = A.serial q → p = q
  root : A.serial S.initproc = initSerial
  lawful : Lawful A.events
  numbered : ∀ {e}, e ∈ A.events → e.Numbered A.born
  zombie : ∀ {q}, (S.proc q).state = .zombie → .exited (A.serial q) ∈ A.events
  closing : ∀ {u}, (S.thread u).state.active = true → (G u).closing ≠ none →
    .exited (A.serial u.1) ∈ A.events
  /-- What is being set up has not been forked yet. -/
  embryo : ∀ {q}, (S.proc q).state = .embryo → ∀ n pid, .forked n (A.serial q) pid ∉ A.events
  /-- What is in the table has not been reaped. -/
  present : ∀ {q}, (S.proc q).state ≠ .unused → ∀ n pid, .reaped n (A.serial q) pid ∉ A.events
  /-- What is in the table has been forked. -/
  parent : ∀ {q}, Settled S q → q ≠ S.initproc →
    ∃ n, .forked n (A.serial q) (Int32.ofNat (A.serial q)) ∈ A.events ∧ ChildOf S A q n
  /-- What has been forked is in the table, or has been reaped. -/
  kids : ∀ {n m pid}, .forked n m pid ∈ A.events →
    (∃ n' pid', .reaped n' m pid' ∈ A.events) ∨ ∃ q, Settled S q ∧ A.serial q = m

theorem Settled.of_ready {q : PId} (h : (S.proc q).isReady = true) : Settled S q := by
  obtain hs | hs := (Entry.isReady_iff _).mp h <;> simp [Settled, hs]

theorem Settled.of_zombie {q : PId} (h : (S.proc q).state = .zombie) : Settled S q := by
  simp [Settled, h]

theorem ChildOf.enter {A : Annals} {q : PId} {n : ℕ} (h : ChildOf S A q n) (e : Event) :
    ChildOf S (A.enter e) q n :=
  h.imp_right fun h => ⟨h.1, mem_cons_of_mem _ h.2.1, h.2.2⟩

theorem ChildOf.keep {A : Annals} {q : PId} {n : ℕ} (h : ChildOf S A q n)
    (hp : (S'.proc q).parent = (S.proc q).parent) (hi : S'.initproc = S.initproc)
    (hready : ∀ {x}, (S.proc q).parent = some x → (S.proc x).isReady = true →
      (S'.proc x).isReady = true)
    (hlive : ∀ {x}, (S'.proc x).state.live = true → (S.proc x).state.live = true) :
    ChildOf S' A q n := by
  obtain ⟨x, hx, hr, hn⟩ | ⟨hx, hex, hgone⟩ := h
  · exact .inl ⟨x, hp.trans hx, hready hx hr, hn⟩
  · exact .inr ⟨by rw [hp, hi, hx], hex, fun x hl => hgone x (hlive hl)⟩

/-! ## Entries that are left alone or set up -/

/-- What the operations do to an entry that are not in the annals. -/
inductive Unlisted (S S' : Kernel ncpu) (z : PId) : Prop where
  | same (hs : (S'.proc z).state = (S.proc z).state) (hp : (S'.proc z).parent = (S.proc z).parent)
      (hm : (S'.proc z).pid = (S.proc z).pid)
  | setUp (hs : (S.proc z).state = .embryo)
      (hs' : (S'.proc z).state = .embryo ∨ (S'.proc z).state = .unused)
      (hm : (S'.proc z).pid = (S.proc z).pid)

namespace Unlisted

variable {z : PId}

section

variable (h : Unlisted S S' z)
include h

theorem present (hz : (S'.proc z).state ≠ .unused) : (S.proc z).state ≠ .unused := by
  cases h with
  | same hs => rwa [hs] at hz
  | setUp hs => simp [hs]

theorem pid : (S'.proc z).pid = (S.proc z).pid := by
  cases h with
  | same _ _ hm | setUp _ _ hm => exact hm

theorem live (hz : (S'.proc z).state.live = true) : (S.proc z).state.live = true := by
  cases h with
  | same hs => rwa [hs] at hz
  | setUp hs => simp [hs]

theorem settled_iff : Settled S' z ↔ Settled S z := by
  cases h with
  | same hs => simp [Settled, hs]
  | setUp hs hs' => obtain hs' | hs' := hs' <;> simp [Settled, hs, hs']

theorem of_settled (hz : Settled S z) :
    (S'.proc z).state = (S.proc z).state ∧ (S'.proc z).parent = (S.proc z).parent := by
  cases h with
  | same hs hp => exact ⟨hs, hp⟩
  | setUp hs => exact absurd hs hz.2

theorem embryo (hz : (S'.proc z).state = .embryo) : (S.proc z).state = .embryo := by
  cases h with
  | same hs => rwa [hs] at hz
  | setUp hs => exact hs

end

theorem of_fate (h : Fate S S' s e z) (hm : (S'.proc z).pid = (S.proc z).pid) (ha : e ≠ .procAlloc)
    (hd : e ≠ .forkDone z) (hw : e ≠ .wait) : Unlisted S S' z := by
  cases h with
  | same hs hp => exact .same hs hp hm
  | taken _ _ _ he => exact absurd he ha
  | adopted _ hs _ hs' => exact .setUp hs (.inl hs') hm
  | launched he => exact absurd he hd
  | freed hs _ hs' he =>
    obtain hs | hs := hs
    · exact .setUp hs (.inr hs') hm
    · exact absurd (he hs) hw

end Unlisted

namespace Chronicle

variable {A : Annals}

theorem unlisted (h : Chronicle S G A) (hn : S'.nextpid = S.nextpid) (hi : S'.initproc = S.initproc)
    (hz : ∀ z, Unlisted S S' z)
    (hcl : ∀ {u}, (S'.thread u).state.active = true → (G' u).closing ≠ none →
      .exited (A.serial u.1) ∈ A.events) : Chronicle S' G' A := by
  have hzombie : ∀ {q}, (S'.proc q).state = .zombie → (S.proc q).state = .zombie := by
    intro q hq
    rw [← hq]
    exact ((hz q).of_settled ((hz q).settled_iff.mp (.of_zombie hq))).1.symm
  exact {
    next := hn.trans h.next
    pid := fun {q} hq => (hz q).pid.trans (h.pid ((hz q).present hq))
    born := h.born
    pos := fun {q} hq => h.pos ((hz q).present hq)
    lt := fun {q} hq => h.lt ((hz q).present hq)
    inj := fun {p q} hp hq => h.inj ((hz p).present hp) ((hz q).present hq)
    root := by rw [hi, h.root]
    lawful := h.lawful
    numbered := h.numbered
    zombie := fun hq => h.zombie (hzombie hq)
    closing := hcl
    embryo := fun {q} hq => h.embryo ((hz q).embryo hq)
    present := fun {q} hq => h.present ((hz q).present hq)
    parent := fun {q} hq hqi => by
      have hq' := (hz q).settled_iff.mp hq
      obtain ⟨n, hf, hchild⟩ := h.parent hq' (hi ▸ hqi)
      refine ⟨n, hf, hchild.keep ((hz q).of_settled hq').2 hi (fun {x} _ hx => ?_) fun {x} => (hz x).live⟩
      rw [Entry.isReady_congr ((hz x).of_settled (.of_ready hx)).1]
      exact hx
    kids := fun hf => by
      obtain hr | ⟨q, hq, hm⟩ := h.kids hf
      · exact .inl hr
      · exact .inr ⟨q, (hz q).settled_iff.mpr hq, hm⟩ }

/-! ## What is entered in the annals -/

section

variable (h : Chronicle S G A)
include h

theorem of_procAlloc {q : PId} (hq : (S.proc q).state = .unused) (hi : S'.initproc = S.initproc)
    (hn : S'.nextpid = S.nextpid + 1) (hq' : (S'.proc q).state = .embryo)
    (hpid : (S'.proc q).pid = S.nextpid) (hz : ∀ z, z ≠ q → S'.proc z = S.proc z)
    (hroot : q ≠ S.initproc)
    (hcl : ∀ {u}, (S'.thread u).state.active = true → (G' u).closing ≠ none →
      u.1 ≠ q ∧ .exited (A.serial u.1) ∈ A.events) : Chronicle S' G' (A.take q) := by
  have hself : (A.take q).serial q = A.born := by simp [Annals.take]
  have hother : ∀ {z}, z ≠ q → (A.take q).serial z = A.serial z := by
    intro z hzq
    simp [Annals.take, hzq]
  have hne : ∀ {z}, Settled S' z → z ≠ q := by
    rintro z hs rfl
    exact hs.2 hq'
  have hlt : ∀ {z}, z ≠ q → (S'.proc z).state ≠ .unused → A.serial z < A.born := by
    intro z hzq hs
    exact h.lt (hz z hzq ▸ hs)
  refine ⟨?_, fun {z} hs => ?_, Nat.succ_pos _, fun {z} hs => ?_, fun {z} hs => ?_,
    fun {p z} hp hs heq => ?_, ?_, h.lawful, fun {e} he => (h.numbered he).mono (Nat.le_succ _), fun {z} hs => ?_, fun {u} hu hclose => ?_,
    fun {z} hs n pid hf => ?_, fun {z} hs n pid hf => ?_, fun {z} hs hzi => ?_, fun {n m pid} hf => ?_⟩
  · rw [hn, h.next]
    exact (Int32.ofNat_add _ _).symm
  · by_cases hzq : z = q
    · subst hzq
      rw [hpid, h.next, hself]
    · rw [hother hzq, hz z hzq, h.pid (hz z hzq ▸ hs)]
  · by_cases hzq : z = q
    · rw [hzq, hself]
      exact h.born
    · rw [hother hzq]
      exact h.pos (hz z hzq ▸ hs)
  · by_cases hzq : z = q
    · subst hzq
      rw [hself]
      exact Nat.lt_succ_self _
    · rw [hother hzq]
      exact Nat.lt_succ_of_lt (hlt hzq hs)
  · by_cases hpq : p = q <;> by_cases hzq : z = q
    · rw [hpq, hzq]
    · subst hpq
      rw [hself, hother hzq] at heq
      have := hlt hzq hs
      omega
    · subst hzq
      rw [hself, hother hpq] at heq
      have := hlt hpq hp
      omega
    · rw [hother hpq, hother hzq] at heq
      exact h.inj (hz p hpq ▸ hp) (hz z hzq ▸ hs) heq
  · rw [hi, hother hroot.symm, h.root]
  · have hzq := hne (.of_zombie hs)
    rw [hother hzq]
    exact h.zombie (hz z hzq ▸ hs)
  · obtain ⟨huq, hex⟩ := hcl hu hclose
    rw [hother huq]
    exact hex
  · by_cases hzq : z = q
    · subst hzq
      rw [hself] at hf
      exact absurd (h.numbered hf).2.1 (lt_irrefl _)
    · rw [hother hzq] at hf
      exact h.embryo (hz z hzq ▸ hs) n pid hf
  · by_cases hzq : z = q
    · subst hzq
      rw [hself] at hf
      exact absurd (h.numbered hf).1 (lt_irrefl _)
    · rw [hother hzq] at hf
      exact h.present (hz z hzq ▸ hs) n pid hf
  · have hzq := hne hs
    rw [hother hzq]
    obtain ⟨n, hf, hchild⟩ := h.parent (q := z) (by rwa [Settled, ← hz z hzq]) (hi ▸ hzi)
    refine ⟨n, hf, ?_⟩
    obtain ⟨x, hx, hr, hxn⟩ | ⟨hx, hex, hgone⟩ := hchild
    · have hxq : x ≠ q := by
        rintro rfl
        simp [Entry.isReady, hq] at hr
      exact .inl ⟨x, by rw [hz z hzq, hx], by rw [hz x hxq, hr], by rw [hother hxq, hxn]⟩
    · refine .inr ⟨by rw [hz z hzq, hi, hx], hex, fun x hl => ?_⟩
      by_cases hxq : x = q
      · subst hxq
        rw [hself]
        exact (h.numbered hf).1.ne'
      · rw [hother hxq]
        exact hgone x (hz x hxq ▸ hl)
  · obtain hr | ⟨z, hs, hm⟩ := h.kids hf
    · exact .inl hr
    · have hzq : z ≠ q := by
        rintro rfl
        exact hs.1 hq
      exact .inr ⟨z, by rwa [Settled, hz z hzq], by rw [hother hzq, hm]⟩

theorem of_exitEnter {p : PId} (hp : (S.proc p).state ≠ .unused) :
    Chronicle S G (A.enter (.exited (A.serial p))) := by
  have hmem : ∀ {e}, e ∈ A.events → e ∈ (A.enter (.exited (A.serial p))).events :=
    fun he => mem_cons_of_mem _ he
  have hold : ∀ {e}, (∀ n, e ≠ .exited n) → e ∈ (A.enter (.exited (A.serial p))).events →
      e ∈ A.events := fun hne he => (mem_cons.mp he).resolve_left (hne _)
  refine ⟨h.next, h.pid, h.born, h.pos, h.lt, h.inj, h.root, ⟨trivial, h.lawful⟩, fun {e} he => ?_,
    fun hs => hmem (h.zombie hs), fun hu hclose => hmem (h.closing hu hclose),
    fun hs n pid hf => h.embryo hs n pid (hold (by simp) hf),
    fun hs n pid hf => h.present hs n pid (hold (by simp) hf), fun hs hzi => ?_, fun hf => ?_⟩
  · obtain rfl | he := mem_cons.mp he
    · exact h.lt hp
    · exact h.numbered he
  · obtain ⟨n, hf, hchild⟩ := h.parent hs hzi
    exact ⟨n, hmem hf, hchild.enter _⟩
  · obtain ⟨n', pid', hr⟩ | hz := h.kids (hold (by simp) hf)
    · exact .inl ⟨n', pid', hmem hr⟩
    · exact .inr hz

theorem of_forkDone {p q : PId} (hp : (S.proc p).isReady = true) (hq : (S.proc q).state = .embryo)
    (hpar : (S.proc q).parent = some p) (hroot : (S.proc S.initproc).isReady = true)
    (hn : S'.nextpid = S.nextpid) (hi : S'.initproc = S.initproc)
    (hq' : S'.proc q = { S.proc q with state := .runnable })
    (hz : ∀ z, z ≠ q → S'.proc z = S.proc z)
    (hcl : ∀ {u}, (S'.thread u).state.active = true → (G' u).closing ≠ none →
      .exited (A.serial u.1) ∈ A.events) :
    Chronicle S' G' (A.enter (.forked (A.serial p) (A.serial q) (S.proc q).pid)) := by
  have hqpres : (S.proc q).state ≠ .unused := by simp [hq]
  have hppres : (S.proc p).state ≠ .unused := (Settled.of_ready hp).1
  have hpid := h.pid hqpres
  have hmem : ∀ {e}, e ∈ A.events →
      e ∈ (A.enter (.forked (A.serial p) (A.serial q) (S.proc q).pid)).events :=
    fun he => mem_cons_of_mem _ he
  have hpres : ∀ {z}, (S'.proc z).state ≠ .unused → (S.proc z).state ≠ .unused := by
    intro z hs
    by_cases hzq : z = q
    · rwa [hzq]
    · rwa [hz z hzq] at hs
  have hready : ∀ {x}, (S.proc x).isReady = true → (S'.proc x).isReady = true := by
    intro x hx
    by_cases hxq : x = q
    · rw [hxq, hq']
      rfl
    · rwa [hz x hxq]
  have hlive : ∀ {x}, (S'.proc x).state.live = true → (S.proc x).state.live = true := by
    intro x hx
    by_cases hxq : x = q
    · simp [hxq, hq]
    · rwa [hz x hxq] at hx
  refine ⟨hn.trans h.next, fun {z} hs => ?_, h.born, fun hs => h.pos (hpres hs),
    fun hs => h.lt (hpres hs), fun hx hy => h.inj (hpres hx) (hpres hy), by rw [hi]; exact h.root,
    ⟨h.embryo hq, h.lawful⟩, fun {e} he => ?_, fun {z} hs => ?_, fun hu hclose => hmem (hcl hu hclose),
    fun {z} hs n pid hf => ?_, fun {z} hs n pid hf => ?_, fun {z} hs hzi => ?_, fun {n m pid} hf => ?_⟩
  · have : (S'.proc z).pid = (S.proc z).pid := by
      by_cases hzq : z = q
      · rw [hzq, hq']
      · rw [hz z hzq]
    rw [this]
    exact h.pid (hpres hs)
  · obtain rfl | he := mem_cons.mp he
    · refine ⟨h.lt hppres, h.lt hqpres, fun heq => ?_, hpid⟩
      have hqi := h.inj hqpres (Settled.of_ready hroot).1 (heq.trans h.root.symm)
      rw [← hqi] at hroot
      simp [Entry.isReady, hq] at hroot
    · exact h.numbered he
  · have hzq : z ≠ q := by
      rintro rfl
      simp [hq'] at hs
    exact hmem (h.zombie (hz z hzq ▸ hs))
  · have hzq : z ≠ q := by
      rintro rfl
      simp [hq'] at hs
    rw [hz z hzq] at hs
    obtain hf | hf := mem_cons.mp hf
    · injection hf with _ hm _
      exact hzq (h.inj (by simp [hs]) hqpres hm)
    · exact h.embryo hs n pid hf
  · exact h.present (hpres hs) n pid ((mem_cons.mp hf).resolve_left (by simp))
  · by_cases hzq : z = q
    · subst hzq
      refine ⟨A.serial p, ?_, .inl ⟨p, by rw [hq', hpar], hready hp, rfl⟩⟩
      rw [Annals.enter_serial, ← hpid]
      exact mem_cons_self
    · have hs' : Settled S z := by rwa [Settled, ← hz z hzq]
      obtain ⟨n, hf, hchild⟩ := h.parent hs' (hi ▸ hzi)
      exact ⟨n, hmem hf, (hchild.enter _).keep (by rw [hz z hzq]) hi (fun _ => hready) hlive⟩
  · obtain hf | hf := mem_cons.mp hf
    · injection hf with _ hm _
      exact .inr ⟨q, by simp [Settled, hq'], hm.symm⟩
    · obtain ⟨n', pid', hr⟩ | ⟨z, hs, hm⟩ := h.kids hf
      · exact .inl ⟨n', pid', hmem hr⟩
      · have hzq : z ≠ q := by
          rintro rfl
          exact hs.2 hq
        exact .inr ⟨z, by rwa [Settled, hz z hzq], hm⟩

theorem of_reap {p q : PId} (hq : (S.proc q).state = .zombie) (hpar : (S.proc q).parent = some p)
    (hqi : q ≠ S.initproc) (hn : S'.nextpid = S.nextpid) (hi : S'.initproc = S.initproc)
    (hq' : (S'.proc q).state = .unused) (hz : ∀ z, z ≠ q → S'.proc z = S.proc z)
    (hcl : ∀ {u}, (S'.thread u).state.active = true → (G' u).closing ≠ none →
      .exited (A.serial u.1) ∈ A.events) :
    Chronicle S' G' (A.enter (.reaped (A.serial p) (A.serial q) (S.proc q).pid)) := by
  have hqpres : (S.proc q).state ≠ .unused := by simp [hq]
  have hpid := h.pid hqpres
  have hmem : ∀ {e}, e ∈ A.events →
      e ∈ (A.enter (.reaped (A.serial p) (A.serial q) (S.proc q).pid)).events :=
    fun he => mem_cons_of_mem _ he
  have hne : ∀ {z}, (S'.proc z).state ≠ .unused → z ≠ q := by
    rintro z hs rfl
    exact hs hq'
  have hpres : ∀ {z}, (S'.proc z).state ≠ .unused → (S.proc z).state ≠ .unused := by
    intro z hs
    rwa [hz z (hne hs)] at hs
  obtain ⟨n, hforked, hchild⟩ := h.parent (.of_zombie hq) hqi
  -- the parent is the one that forked the zombie, or `init`
  have hallowed : Event.Allowed (.reaped (A.serial p) (A.serial q) (S.proc q).pid) A.events := by
    refine ⟨h.zombie hq, h.present hqpres, n, by rw [hpid]; exact hforked, ?_⟩
    obtain ⟨x, hx, -, rfl⟩ | ⟨hx, hex, -⟩ := hchild
    · rw [hpar] at hx
      exact .inl (by rw [Option.some.inj hx])
    · rw [hpar] at hx
      exact .inr ⟨by rw [Option.some.inj hx, h.root], hex⟩
  refine ⟨hn.trans h.next, fun {z} hs => ?_, h.born, fun hs => h.pos (hpres hs),
    fun hs => h.lt (hpres hs), fun hx hy => h.inj (hpres hx) (hpres hy), by rw [hi]; exact h.root, ⟨hallowed, h.lawful⟩,
    fun {e} he => ?_, fun {z} hs => ?_, fun hu hclose => hmem (hcl hu hclose),
    fun {z} hs n pid hf => ?_, fun {z} hs n pid hf => ?_, fun {z} hs hzi => ?_, fun {n m pid} hf => ?_⟩
  · rw [hz z (hne hs)]
    exact h.pid (hpres hs)
  · obtain rfl | he := mem_cons.mp he
    · exact ⟨h.lt hqpres, hpid⟩
    · exact h.numbered he
  · rw [hz z (hne (by simp [hs]))] at hs
    exact hmem (h.zombie hs)
  · rw [hz z (hne (by simp [hs]))] at hs
    exact h.embryo hs n pid ((mem_cons.mp hf).resolve_left (by simp))
  · obtain hf | hf := mem_cons.mp hf
    · injection hf with _ hm _
      exact hne hs (h.inj (hpres hs) hqpres hm)
    · exact h.present (hpres hs) n pid hf
  · have hzq := hne hs.1
    have hs' : Settled S z := by rwa [Settled, ← hz z hzq]
    obtain ⟨n, hf, hchild⟩ := h.parent hs' (hi ▸ hzi)
    refine ⟨n, hmem hf, (hchild.enter _).keep (by rw [hz z hzq]) hi (fun {x} _ hx => ?_) fun {x} hx => ?_⟩
    · have hxq : x ≠ q := by
        rintro rfl
        simp [Entry.isReady, hq] at hx
      rwa [hz x hxq]
    · have hxq : x ≠ q := by
        rintro rfl
        simp [hq'] at hx
      rwa [hz x hxq] at hx
  · obtain ⟨n', pid', hr⟩ | ⟨z, hs, hm⟩ :=
      h.kids ((mem_cons.mp hf).resolve_left (by simp))
    · exact .inl ⟨n', pid', hmem hr⟩
    · by_cases hzq : z = q
      · subst hzq hm
        exact .inl ⟨_, _, mem_cons_self⟩
      · exact .inr ⟨z, by rwa [Settled, hz z hzq], hm⟩

theorem of_exit {p : PId} (hp : (S.proc p).isReady = true)
    (hexited : .exited (A.serial p) ∈ A.events) (hroot : p ≠ S.initproc)
    (hn : S'.nextpid = S.nextpid) (hi : S'.initproc = S.initproc)
    (hp' : (S'.proc p).state = .zombie) (hpid : (S'.proc p).pid = (S.proc p).pid)
    (hpar : (S'.proc p).parent = (S.proc p).parent) (hchild : ∀ {z}, (S.proc z).parent = some p →
      S'.proc z = { S.proc z with parent := some S.initproc })
    (hother : ∀ {z}, z ≠ p → (S.proc z).parent ≠ some p → S'.proc z = S.proc z)
    (hcl : ∀ {u}, (S'.thread u).state.active = true → (S.thread u).state.active = true) :
    Chronicle S' G A := by
  have hppres : (S.proc p).state ≠ .unused := (Settled.of_ready hp).1
  -- but for `p` itself nobody changes state or identifier
  have hsame : ∀ {z}, z ≠ p → (S'.proc z).state = (S.proc z).state ∧
      (S'.proc z).pid = (S.proc z).pid := by
    intro z hzp
    by_cases hz : (S.proc z).parent = some p
    · rw [hchild hz]
      exact ⟨rfl, rfl⟩
    · rw [hother hzp hz]
      exact ⟨rfl, rfl⟩
  have hpres : ∀ {z}, (S'.proc z).state ≠ .unused → (S.proc z).state ≠ .unused := by
    intro z hs
    by_cases hzp : z = p
    · rwa [hzp]
    · rwa [(hsame hzp).1] at hs
  have hlive : ∀ {x}, (S'.proc x).state.live = true → x ≠ p ∧ (S.proc x).state.live = true := by
    intro x hx
    have hxp : x ≠ p := by
      rintro rfl
      simp [hp'] at hx
    exact ⟨hxp, (hsame hxp).1 ▸ hx⟩
  refine ⟨hn.trans h.next, fun {z} hs => ?_, h.born, fun hs => h.pos (hpres hs),
    fun hs => h.lt (hpres hs), fun hx hy => h.inj (hpres hx) (hpres hy), by rw [hi]; exact h.root, h.lawful, h.numbered,
    fun {z} hs => ?_, fun hu hclose => h.closing (hcl hu) hclose, fun {z} hs => ?_,
    fun hs => h.present (hpres hs), fun {z} hs hzi => ?_, fun {n m pid} hf => ?_⟩
  · have : (S'.proc z).pid = (S.proc z).pid := by
      by_cases hzp : z = p
      · rw [hzp, hpid]
      · exact (hsame hzp).2
    rw [this]
    exact h.pid (hpres hs)
  · by_cases hzp : z = p
    · rwa [hzp]
    · exact h.zombie ((hsame hzp).1 ▸ hs)
  · have hzp : z ≠ p := by
      rintro rfl
      simp [hp'] at hs
    exact h.embryo ((hsame hzp).1 ▸ hs)
  · have hs' : Settled S z := by
      by_cases hzp : z = p
      · rw [hzp]
        exact .of_ready hp
      · rwa [Settled, ← (hsame hzp).1]
    obtain ⟨n, hf, hkid⟩ := h.parent hs' (hi ▸ hzi)
    refine ⟨n, hf, ?_⟩
    by_cases hz : (S.proc z).parent = some p
    · -- a child of `p` is now one of `init`
      refine .inr ⟨by rw [hchild hz, hi], ?_⟩
      obtain ⟨x, hx, -, rfl⟩ | ⟨hx, -⟩ := hkid
      · rw [hz] at hx
        obtain rfl := Option.some.inj hx
        refine ⟨hexited, fun x hx heq => ?_⟩
        obtain ⟨hxp, hl⟩ := hlive hx
        exact hxp (h.inj (by rintro hu; simp [hu] at hl) hppres heq)
      · rw [hz] at hx
        exact absurd (Option.some.inj hx) hroot
    · have hparent : (S'.proc z).parent = (S.proc z).parent := by
        by_cases hzp : z = p
        · rw [hzp, hpar]
        · rw [hother hzp hz]
      refine hkid.keep hparent hi (fun {x} hx hr => ?_) fun hx => (hlive hx).2
      have hxp : x ≠ p := by
        rintro rfl
        exact hz hx
      rwa [Entry.isReady_congr (hsame hxp).1]
  · obtain hr | ⟨z, hs, hm⟩ := h.kids hf
    · exact .inl hr
    · refine .inr ⟨z, ?_, hm⟩
      by_cases hzp : z = p
      · rw [hzp]
        exact .of_zombie hp'
      · rwa [Settled, (hsame hzp).1]

theorem setCode (code : Slot → KProg Unit) : Chronicle { S with code := code } G A :=
  ⟨h.next, h.pid, h.born, h.pos, h.lt, h.inj, h.root, h.lawful, h.numbered, h.zombie, h.closing, h.embryo,
    h.present, h.parent, h.kids⟩

end

end Chronicle

/-! ## Steps -/

theorem procAlloc_done {r : Option PId} (hperf : S.perform c s ch .procAlloc = some (.done r S')) :
    r = none ∧ S' = S ∨ ∃ q, r = some q ∧ (S.proc q).state = .unused ∧
      S'.nextpid = S.nextpid + 1 ∧ (S'.proc q).state = .embryo ∧ (S'.proc q).pid = S.nextpid ∧
      ∀ z, z ≠ q → S'.proc z = S.proc z := by
  cases hperf
  unfold procAlloc
  split
  · exact .inl ⟨rfl, rfl⟩
  · rename_i q hq
    refine .inr ⟨q, rfl, by simpa using first?_eq_some hq, rfl, by simp, by simp, fun z hz => ?_⟩
    simp [hz]

theorem wait_done {r : Int32} (hperf : S.perform c s ch .wait = some (.done r S')) :
    (∃ q, S.zombieChild s.1 = some q ∧ r = (S.proc q).pid ∧ (S.proc q).parent = some s.1 ∧
      (S.proc q).state = .zombie ∧ (S'.proc q).state = .unused ∧
      ∀ z, z ≠ q → S'.proc z = S.proc z) ∨
    S.zombieChild s.1 = none ∧ r = -1 ∧ S' = S ∧
      ((S.proc s.1).killed = true ∨ ∀ q, (S.proc q).parent ≠ some s.1) := by
  obtain ⟨q, page, hq, rfl, -, hparent, hz, rfl⟩ | ⟨hnone, rfl, hno, rfl⟩ := wait_cases hperf
  · exact .inl ⟨q, hq, rfl, hparent, hz, by simp, fun z hz => by simp [hz]⟩
  · refine .inr ⟨hnone, rfl, rfl, ?_⟩
    rw [Option.isNone_iff_eq_none, first?, find?_eq_none] at hno
    simpa [or_comm] using hno

namespace Chronicle

variable {A : Annals}

theorem of_done (h : Chronicle S G A) (ha : Answered S S' G c s ch e k r) (hf : Family S G)
    (he : e.threaded = false) :
    Chronicle { S' with code := update S'.code s (k r) } (learn G s e r)
      (A.record S s e r) := by
  have hperf := ha.perf
  have hmarks := marks_of_done hperf
  have hfate := ha.fate
  have hready := ha.inv.ready (ha.inv.running_live ha.cpu)
  -- who is inside `exit` was so before, but for `exitEnter`
  have hcl : e ≠ .exitEnter → ∀ u, (S'.thread u).state.active = true →
      (learn G s e r u).closing ≠ none →
      (S.thread u).state.active = true ∧ .exited (A.serial u.1) ∈ A.events := by
    intro hent u hu hclose
    obtain ⟨hact, ⟨-, he'⟩ | hold⟩ := ha.closing hu hclose
    · exact absurd he' hent
    · exact ⟨hact, h.closing hact hold⟩
  refine Chronicle.setCode (S := S') ?_ _
  by_cases hrec : e.recorded = false
  · rw [Annals.record_eq hrec]
    have hne : e ≠ .procAlloc ∧ e ≠ .exitEnter ∧ e ≠ .wait ∧ ∀ q, e ≠ .forkDone q := by
      refine ⟨?_, ?_, ?_, fun q => ?_⟩
      all_goals
        rintro rfl
        cases hrec
    have hpids : e.keepsPids = true := by
      cases e with
      | procAlloc | wait => cases hrec
      | _ => rfl
    exact h.unlisted (hmarks.nextpid hne.1) hmarks.initproc
      (fun z => .of_fate (hfate z) (hmarks.pid hpids z) hne.1 (hne.2.2.2 z) hne.2.2.1)
      fun hu hclose => (hcl hne.2.1 _ hu hclose).2
  cases e with
  | procAlloc =>
    obtain ⟨rfl, rfl⟩ | ⟨q, rfl, hq, hn, hq', hpid, hz⟩ := procAlloc_done hperf
    · exact h.unlisted rfl rfl (fun z => .same rfl rfl rfl) fun hu hclose => (hcl (by simp) _ hu hclose).2
    · refine h.of_procAlloc hq hmarks.initproc hn hq' hpid hz ?_ fun {u} hu hclose => ?_
      · rintro rfl
        have := hf.ready
        simp [Entry.isReady, hq] at this
      · obtain ⟨hact, hex⟩ := hcl (by simp) u hu hclose
        refine ⟨?_, hex⟩
        rintro rfl
        have := ha.inv.ready (RunState.live_of_active hact)
        simp [Entry.isReady, hq] at this
  | forkDone q =>
    have hpre := ha.pre
    have hown := ha.owns
    have hq := hown.embryo hpre
    have hpar := hown.parent hpre
    have hcl := hcl (by simp)
    cases hperf
    exact h.of_forkDone hready hq (by simpa using hpar) hf.ready rfl rfl (by simp)
      (fun z hz => by simp [hz]) fun hu hclose => (hcl _ hu hclose).2
  | exitEnter =>
    refine (h.of_exitEnter (Settled.of_ready hready).1).unlisted (hmarks.nextpid (by simp))
      hmarks.initproc (fun z => ?_) fun {u} hu hclose => ?_
    · exact .of_fate (hfate z) (hmarks.pid rfl z) (by simp) (by simp) (by simp)
    · obtain ⟨hact, ⟨rfl, -⟩ | hold⟩ := ha.closing hu hclose
      · exact mem_cons_self
      · exact mem_cons_of_mem _ (h.closing hact hold)
  | wait =>
    have hcl := hcl (by simp)
    obtain ⟨q, hchild, rfl, hpar, hq, hq', hz⟩ | ⟨hchild, rfl, rfl, -⟩ := wait_done hperf
    · simp only [Annals.record, hchild]
      refine h.of_reap hq hpar ?_ (hmarks.nextpid (by simp)) hmarks.initproc hq' hz
        fun hu hclose => (hcl _ hu hclose).2
      rintro rfl
      have := hf.ready
      simp [Entry.isReady, hq] at this
    · simp only [Annals.record, hchild]
      exact h.unlisted rfl rfl (fun z => .same rfl rfl rfl) fun hu hclose => (hcl _ hu hclose).2
  | _ => exact absurd rfl hrec

/-- **A step of single-threaded processes is recorded truly.** -/
theorem step {a : Act ncpu} (h : Chronicle S G A) (hi : Inv S G) (ha : Adopted S G)
    (hf : Family S G) (hok : SingleThreaded S a) (hm : Moves S G a S' G') :
    Chronicle S' G' (S.annals A a) := by
  cases hm with
  | schedule hc hrun =>
    rename_i c s
    have hs := runnable_of_canRun hrun
    refine h.unlisted rfl rfl (fun z => .same rfl rfl rfl) fun {u} hu hclose => h.closing ?_ hclose
    by_cases hus : u = s
    · simp [hus, hs]
    · simpa [dispatch, hus] using hu
  | done hc hcode hperf =>
    rw [annals, nextOp_eq hc hcode]
    dsimp only
    rw [hperf]
    have he := hok.not_threaded hc hcode
    exact h.of_done ⟨hi, hc, hcode, hperf, not_threadExit he S _⟩ hf he
  | sleep hc hcode hperf =>
    rename_i c s ch e k chan
    rw [annals, nextOp_eq hc hcode]
    dsimp only
    rw [hperf]
    refine h.unlisted rfl rfl (fun z => .same rfl rfl rfl) fun {u} hu hclose => h.closing ?_ hclose
    by_cases hus : u = s
    · rw [hus]
      exact hi.running_active hc
    · simpa [sleepOn, Kernel.leave, hus] using hu
  | gone hc hcode hperf =>
    obtain rfl | rfl := gone_cases hperf
    · cases hok.not_threaded hc hcode
    · rename_i c s ch k
      rw [annals, nextOp_eq hc hcode]
      dsimp only
      rw [hperf]
      have hex := (exitDone_gone hperf).1
      obtain ⟨fds, hclosing, -⟩ := (hi.pre_of_code hc hcode).2
      obtain ⟨hinit, hparent⟩ := exitDone_parent hperf (hf.self s.1)
      refine h.of_exit (hi.ready (hi.running_live hc))
        (h.closing (hi.running_active hc) (by simp [hclosing])) (hf.not_init hi hc hcode) ?_ hinit
        hex.state ?_ hparent (hf.child_of_exit hi ha hc hcode hperf) hex.other
        fun hu => active_of_gone hperf hu
      · cases (withRow_gone hperf).2
        rfl
      · cases (withRow_gone hperf).2
        simp [Kernel.leave, exitTables, reparent, wakeup1, hf.self s.1]
  | enter hc hcode =>
    rename_i c s t
    have hstart := hi.start_of_code hc hcode
    rw [← hstart, update_eq_self]
    exact h.unlisted rfl rfl (fun z => .same rfl rfl rfl) h.closing
  | tick hc hcode hs =>
    rename_i c s depth e k
    refine h.unlisted rfl rfl (fun z => .same rfl rfl rfl) fun {u} hu hclose => h.closing ?_ hclose
    by_cases hus : u = s
    · simp [hus, hs]
    · simpa [yield, Kernel.leave, hus] using hu
  | intr =>
    rename_i chan
    refine h.unlisted rfl rfl (fun z => .same rfl rfl rfl) fun {u} hu hclose => h.closing ?_ hclose
    rwa [(quiet_wakeup1 S chan).active_eq] at hu

theorem of_booted (h : Booted S) : Chronicle S (fun _ => .start) .start := by
  obtain ⟨k, d, avail, -, -, -, rfl⟩ := h
  have hfirst : ∀ {q}, ((boot ncpu k d avail).proc q).state ≠ .unused → q = 0 := by
    intro q hq
    by_contra hne
    simp [boot, hne, Entry.empty] at hq
  refine ⟨rfl, fun {q} hq => ?_, by decide, fun {q} hq => ?_, fun {q} hq => ?_, fun hp hq _ => ?_, rfl, trivial,
    fun he => absurd he not_mem_nil, fun {q} hq => ?_, fun _ hclose => absurd rfl hclose,
    fun _ n pid => not_mem_nil, fun _ n pid => not_mem_nil, fun hq hne => ?_,
    fun he => absurd he not_mem_nil⟩
  · obtain rfl := hfirst hq
    rfl
  · obtain rfl := hfirst hq
    decide
  · obtain rfl := hfirst hq
    decide
  · rw [hfirst hp, hfirst hq]
  · obtain rfl : q = 0 := hfirst (by simp [hq])
    cases hq
  · exact absurd (hfirst hq.1) hne

theorem childless (h : Chronicle S G A) {p : PId} (hp : (S.proc p).isReady = true)
    (hnone : ∀ q, (S.proc q).parent ≠ some p) {m : ℕ} {pid : Int32}
    (hfork : .forked (A.serial p) m pid ∈ A.events) :
    ∃ n pid', .reaped n m pid' ∈ A.events := by
  obtain hr | ⟨q, hq, rfl⟩ := h.kids hfork
  · exact hr
  exfalso
  have hqi : q ≠ S.initproc := by
    rintro rfl
    exact (h.numbered hfork).2.2.1 h.root
  obtain ⟨n, hf, hchild⟩ := h.parent hq hqi
  obtain rfl := h.lawful.forked_unique hf hfork
  obtain ⟨x, hx, hr, hxp⟩ | ⟨-, -, hgone⟩ := hchild
  · obtain rfl := h.inj (Settled.of_ready hr).1 (Settled.of_ready hp).1 hxp
    exact hnone q hx
  · exact hgone p (Entry.live_of_isReady hp) rfl

end Chronicle

theorem chronicle_of_reach {x : Kernel ncpu × Annals}
    (h : Reach stepRecorded (fun x a => SingleThreaded x.1 a) Unrecorded x) :
    ∃ G, Inv x.1 G ∧ Family x.1 G ∧ Chronicle x.1 G x.2 := by
  have hall : ∃ G, Inv x.1 G ∧ Adopted x.1 G ∧ Family x.1 G ∧ Chronicle x.1 G x.2 := by
    refine Reach.invariant
      (I := fun x => ∃ G, Inv x.1 G ∧ Adopted x.1 G ∧ Family x.1 G ∧ Chronicle x.1 G x.2) ?_ ?_ h
    · rintro ⟨S, A⟩ ⟨hb, rfl⟩
      exact ⟨_, .of_booted hb, .of_booted hb _, .of_booted hb, .of_booted hb⟩
    · rintro ⟨S, A⟩ a ⟨S', A'⟩ ⟨G, hi, ha, hf, hch⟩ hsolo hstep
      simp only [stepRecorded] at hstep
      split at hstep
      · cases hstep
      · cases hstep
      · rename_i hst
        cases hstep
        obtain ⟨G', hm⟩ := Moves.of_step G hst
        have hok := hf.orderly hi hsolo
        exact ⟨G', hi.step hok hm, ha.step hi hok hm, hf.step hi ha hsolo hm,
          hch.step hi ha hf hsolo hm⟩
  obtain ⟨G, hi, -, hf, hch⟩ := hall
  exact ⟨G, hi, hf, hch⟩

/-! ## Reaping -/

/-- What a `wait` of thread `s` that is answered `r` has done. -/
inductive WaitSound (S S' : Kernel ncpu) (A : Annals) (s : Slot) (r : Int32) : Prop where
  /-- It has freed one zombie child and touched no other entry. -/
  | reaps (q : PId) (hpar : (S.proc q).parent = some s.1) (hq : (S.proc q).state = .zombie)
      (hr : r = (S.proc q).pid) (hq' : (S'.proc q).state = .unused)
      (hother : ∀ z, z ≠ q → S'.proc z = S.proc z)
  /-- It has done nothing; if the process has not been killed, it has no child in the table,
  and all that it ever forked have been reaped. -/
  | fails (hr : r = -1) (hS : S' = S)
      (hnone : (S.proc s.1).killed = false → (∀ q, (S.proc q).parent ≠ some s.1) ∧
        ∀ m pid, .forked (A.serial s.1) m pid ∈ A.events → ∃ n pid', .reaped n m pid' ∈ A.events)

/-- **Children are reaped exactly once.**  In every run of single-threaded processes the
annals are lawful; no identifier has been returned by two calls of `wait`, as long as fewer
than `2 ^ 32` processes were started; and the next `wait` that is answered frees one zombie
child and nothing else, or fails for want of children or because the process was killed. -/
theorem reaped_once {x : Kernel ncpu × Annals}
    (h : Reach stepRecorded (fun x a => SingleThreaded x.1 a) Unrecorded x) :
    Lawful x.2.events ∧ (∀ e ∈ x.2.events, e.Numbered x.2.born) ∧
    (x.2.events.filterMap Event.reapedSerial).Nodup ∧
    (x.2.born ≤ 2 ^ 32 → (x.2.events.filterMap Event.reapedPid).Nodup) ∧
    ∀ c s ch r S', x.1.nextOp c = some (s, .wait) →
      x.1.perform c s ch .wait = some (.done r S') → WaitSound x.1 S' x.2 s r := by
  obtain ⟨G, hi, -, hch⟩ := chronicle_of_reach h
  refine ⟨hch.lawful, fun e he => hch.numbered he, hch.lawful.nodup_reaped,
    fun hb => hch.lawful.nodup_pids hb fun e he => hch.numbered he, fun c s ch r S' hnext hperf => ?_⟩
  obtain ⟨q, -, hr, hpar, hq, hq', hother⟩ | ⟨-, hr, hS, hno⟩ := wait_done hperf
  · exact .reaps q hpar hq hr hq' hother
  · refine .fails hr hS fun hk => ?_
    have hnone := hno.resolve_left (by simp [hk])
    have hc := (nextOp_iff.mp hnext).1
    exact ⟨hnone, fun m pid hf => hch.childless (hi.ready (hi.running_live hc)) hnone hf⟩

/-- The first process, at the start of the annals. -/
def unrecorded : Kernel 2 × Annals := (booted, .start)

theorem unrecorded_unrecorded : Unrecorded unrecorded := ⟨booted_booted, rfl⟩

/-- The child of `init` exits while `init` waits for it, and `init` reaps it. -/
def initReaps : List (Act 2) :=
  initWaiting ++ calls cpu1 .exit 28 ++ [.schedule cpu0 (0, 0), go cpu0]

set_option maxRecDepth 10000 in
/-- The child that exits is forked, exits and is reaped by its parent. -/
theorem reaped_once_initReaps :
    ∃ x : Kernel 2 × Annals,
      (Reach stepRecorded (fun x a => SingleThreaded x.1 a) Unrecorded x ∧
        x.2.events = [.reaped 1 2 2, .exited 2, .forked 1 2 2] ∧ (x.1.proc 1).state = .unused) ∧
      Lawful x.2.events := by
  have hm : Meets stepRecorded (fun x a => SingleThreaded x.1 a) unrecorded initReaps := by
    decide +kernel
  have he : endsIn stepRecorded unrecorded initReaps (fun x =>
      x.2.events == [.reaped 1 2 2, .exited 2, .forked 1 2 2] &&
        (x.1.proc 1).state == .unused) = true := by
    decide +kernel
  obtain ⟨x, hx, ht⟩ := Reach.of_endsIn unrecorded_unrecorded he hm
  simp only [Bool.and_eq_true, beq_iff_eq] at ht
  exact ⟨x, ⟨hx, ht.1, ht.2⟩, (reaped_once hx).1⟩

end Xv6.Proc
