import Xv6.Lib.Transition
import Xv6.Lib.Counting
import Xv6.Log.Basic
import Mathlib.Data.Finset.Card

/-!
# Concurrent operations and the room in the log

`begin_op` admits an operation when `lh.n + (outstanding + 1) * MAXOPBLOCKS` is at most
`LOGSIZE`; `log_write` panics when `lh.n` has reached `log.size - 1`; `mkfs` lays out
`nlog = LOGSIZE` log blocks, one of which is the header.  The first number is `30`, the
second is `29`, so the admission test promises one block more than there is.

The system is any finite number of threads, each outside, inside an operation, between
the two halves of `log_write`, or in the commit of `end_op`.  A step is one critical
section of `log.lock`, or the test that `log_write` makes before it takes the lock; an
action that would put its thread to sleep is not enabled.
-/

namespace Xv6.Admission

open Function Transition Option

/-- Where a thread stands with respect to the log.  An operation carries the set of
sectors it has logged. -/
inductive Pc where
  | outside
  | inOp (used : Finset UInt32)
  /-- In `log_write`, past its tests and before `acquire(&log.lock)`. -/
  | logging (used : Finset UInt32) (s : UInt32)
  /-- In `end_op`, before `commit()`. -/
  | committing
  /-- In `end_op`, after `commit()`. -/
  | committed
  deriving DecidableEq

/-- The log and the threads that use it. -/
structure LogSys (ι : Type*) where
  log : Log
  pc : ι → Pc

/-- What a thread can do next. -/
inductive LogAct where
  | beginOp
  /-- The tests of `log_write` for sector `s`. -/
  | logWrite (s : UInt32)
  /-- The locked half of `log_write`. -/
  | append
  | endOp
  | commit
  /-- The locked end of `end_op` after a commit. -/
  | finish
  deriving DecidableEq

variable {ι : Type*} [DecidableEq ι]

/-- `begin_op`, once its loop lets the caller through. -/
def beginOp (S : LogSys ι) (t : ι) : Option (Except LogPanic (LogSys ι)) :=
  if S.log.committing then none
  else if (logSize : ℤ) < S.log.lh.length + (S.log.outstanding + 1) * maxOpBlocks then none
  else some (.ok
    { log := { S.log with outstanding := S.log.outstanding + 1 }
      pc := update S.pc t (.inOp ∅) })

/-- The tests at the start of `log_write`. -/
def logWrite (S : LogSys ι) (t : ι) (used : Finset UInt32) (s : UInt32) :
    Option (Except LogPanic (LogSys ι)) :=
  if S.log.tooBig then some (.error .tooBig)
  else if S.log.outstanding < 1 then some (.error .outsideTrans)
  else some (.ok { S with pc := update S.pc t (.logging used s) })

/-- The first critical section of `end_op`. -/
def endOp (S : LogSys ι) (t : ι) : Option (Except LogPanic (LogSys ι)) :=
  if S.log.committing then some (.error .committing)
  else if S.log.outstanding - 1 = 0 then some (.ok
    { log := { S.log with outstanding := S.log.outstanding - 1, committing := true }
      pc := update S.pc t .committing })
  else some (.ok
    { log := { S.log with outstanding := S.log.outstanding - 1 }
      pc := update S.pc t .outside })

/-- One step of one thread. -/
def step : StepFn (LogSys ι) (ι × LogAct) LogPanic
  | S, (t, a) =>
    match a, S.pc t with
    | .beginOp, .outside => beginOp S t
    | .logWrite s, .inOp used => logWrite S t used s
    | .append, .logging used s => some (.ok
        { log := S.log.record s
          pc := update S.pc t (.inOp (insert s used)) })
    | .endOp, .inOp _ => endOp S t
    | .commit, .committing => some (.ok
        { log := { S.log with lh := [] }
          pc := update S.pc t .committed })
    | .finish, .committed => some (.ok
        { log := { S.log with committing := false }
          pc := update S.pc t .outside })
    | _, _ => none

/-- The operation that takes the step logs at most `MAXOPBLOCKS` distinct sectors. -/
def Budget (S : LogSys ι) : ι × LogAct → Prop
  | (t, .logWrite s) =>
    match S.pc t with
    | .inOp used => (insert s used).card ≤ maxOpBlocks
    | _ => True
  | _ => True

/-- There is a log block for the sector that the step logs: `log_write` makes its tests
while fewer than `log.size - 1` sectors are in the header, and when it has the lock its
sector is already there, or there are still fewer. -/
def Room (S : LogSys ι) : ι × LogAct → Prop
  | (_, .logWrite _) => S.log.lh.length + 1 < S.log.size
  | (t, .append) =>
    match S.pc t with
    | .logging _ s => s ∈ S.log.lh ∨ S.log.lh.length + 1 < S.log.size
    | _ => True
  | _ => True

instance (S : LogSys ι) : (a : ι × LogAct) → Decidable (Budget S a)
  | (t, .logWrite s) =>
    match h : S.pc t with
    | .inOp used => decidable_of_iff ((insert s used).card ≤ maxOpBlocks) (by simp [Budget, h])
    | .outside | .logging _ _ | .committing | .committed => isTrue (by simp [Budget, h])
  | (_, .beginOp) | (_, .append) | (_, .endOp) | (_, .commit) | (_, .finish) => isTrue trivial

instance (S : LogSys ι) : (a : ι × LogAct) → Decidable (Room S a)
  | (_, .logWrite _) => inferInstanceAs (Decidable (_ < _))
  | (t, .append) =>
    match h : S.pc t with
    | .logging _ s => decidable_of_iff (s ∈ S.log.lh ∨ S.log.lh.length + 1 < S.log.size)
        (by simp [Room, h])
    | .outside | .inOp _ | .committing | .committed => isTrue (by simp [Room, h])
  | (_, .beginOp) | (_, .endOp) | (_, .commit) | (_, .finish) => isTrue trivial

/-! ## What each thread contributes -/

/-- `1` for a thread inside an operation. -/
def Pc.active : Pc → ℕ
  | .inOp _ | .logging _ _ => 1
  | _ => 0

/-- `1` for a thread that is committing. -/
def Pc.commits : Pc → ℕ
  | .committing | .committed => 1
  | _ => 0

/-- The part of an operation's budget that it has not used. -/
def Pc.unused : Pc → ℕ
  | .inOp used | .logging used _ => maxOpBlocks - used.card
  | _ => 0

@[simp] theorem Pc.counts_outside :
    Pc.outside.active = 0 ∧ Pc.outside.commits = 0 ∧ Pc.outside.unused = 0 :=
  ⟨rfl, rfl, rfl⟩

@[simp] theorem Pc.counts_inOp (used : Finset UInt32) :
    (Pc.inOp used).active = 1 ∧ (Pc.inOp used).commits = 0 ∧
      (Pc.inOp used).unused = maxOpBlocks - used.card :=
  ⟨rfl, rfl, rfl⟩

@[simp] theorem Pc.counts_logging (used : Finset UInt32) (s : UInt32) :
    (Pc.logging used s).active = 1 ∧ (Pc.logging used s).commits = 0 ∧
      (Pc.logging used s).unused = maxOpBlocks - used.card :=
  ⟨rfl, rfl, rfl⟩

@[simp] theorem Pc.counts_committing :
    Pc.committing.active = 0 ∧ Pc.committing.commits = 1 ∧ Pc.committing.unused = 0 :=
  ⟨rfl, rfl, rfl⟩

@[simp] theorem Pc.counts_committed :
    Pc.committed.active = 0 ∧ Pc.committed.commits = 1 ∧ Pc.committed.unused = 0 :=
  ⟨rfl, rfl, rfl⟩

theorem Pc.unused_le (p : Pc) : p.unused ≤ maxOpBlocks * p.active := by
  cases p <;> simp

/-- What is known of an operation: the sectors it has logged are in the header, and it is
within its budget, the sector it is about to log included. -/
def Pc.Sound (lh : List UInt32) : Pc → Prop
  | .inOp used => (∀ s ∈ used, s ∈ lh) ∧ used.card ≤ maxOpBlocks
  | .logging used s => (∀ s ∈ used, s ∈ lh) ∧ (insert s used).card ≤ maxOpBlocks
  | _ => True

theorem Pc.Sound.mono {lh lh' : List UInt32} {p : Pc} (h : p.Sound lh)
    (hsub : ∀ s ∈ lh, s ∈ lh') : p.Sound lh' := by
  cases p with
  | inOp | logging used s => exact ⟨fun s hs => hsub s (h.1 s hs), h.2⟩
  | outside | committing | committed => trivial

theorem Pc.Sound.of_active {lh : List UInt32} {p : Pc} (h : p.active = 0) : p.Sound lh := by
  cases p with
  | inOp used => simp at h
  | logging used s => simp at h
  | outside | committing | committed => trivial

variable [Fintype ι]

/-- **The invariant** of runs in which every operation keeps to its budget. -/
structure Inv (S : LogSys ι) : Prop where
  size : S.log.size = nlog
  nodup : S.log.lh.Nodup
  count : S.log.outstanding = ∑ t, (S.pc t).active
  one : ∑ t, (S.pc t).commits = if S.log.committing then 1 else 0
  excl : S.log.committing = true → S.log.outstanding = 0
  sound : ∀ t, (S.pc t).Sound S.log.lh
  reserve : S.log.lh.length + ∑ t, (S.pc t).unused ≤ logSize

variable {S : LogSys ι} {t : ι}

section

omit [DecidableEq ι]

theorem Inv.active_eq_zero (h : Inv S) (h0 : S.log.outstanding = 0) (t : ι) :
    (S.pc t).active = 0 := by
  refine eq_zero_of_sum_eq_zero (g := Pc.active) (f := S.pc) ?_ t
  have := h.count
  omega

theorem Inv.committing_of_commits (h : Inv S) (ht : (S.pc t).commits = 1) :
    S.log.committing = true := by
  have hle := le_sum Pc.commits S.pc t
  rw [ht, h.one] at hle
  by_contra hc
  rw [if_neg hc] at hle
  omega

theorem Inv.unused_le (h : Inv S) :
    ((∑ t, (S.pc t).unused : ℕ) : ℤ) ≤ maxOpBlocks * S.log.outstanding := by
  rw [h.count, ← Nat.cast_mul, Nat.cast_le, Finset.mul_sum]
  exact Finset.sum_le_sum fun t _ => (S.pc t).unused_le

end

/-- **Moving one thread** keeps the invariant when the log's fields move with it: the
counts by what the thread's place contributes, the header within the reserve. -/
theorem Inv.move {q : Pc} {l : Log} (h : Inv S) (hsize : l.size = S.log.size) (hnodup : l.lh.Nodup)
    (hcount : l.outstanding + (S.pc t).active = S.log.outstanding + q.active)
    (hone : (if l.committing then 1 else 0) + (S.pc t).commits
      = (if S.log.committing then 1 else 0) + q.commits)
    (hexcl : l.committing = true → l.outstanding = 0) (hothers : ∀ u, (S.pc u).Sound l.lh)
    (hq : q.Sound l.lh)
    (hres : l.lh.length + q.unused + ∑ u, (S.pc u).unused ≤ logSize + (S.pc t).unused) :
    Inv { log := l, pc := update S.pc t q } where
  size := hsize.trans h.size
  nodup := hnodup
  count := by
    have hsum := sum_update_add Pc.active S.pc t q
    have hold := h.count
    show l.outstanding = ((∑ u, (update S.pc t q u).active : ℕ) : ℤ)
    omega
  one := by
    have hsum := sum_update_add Pc.commits S.pc t q
    have hold := h.one
    show ∑ u, (update S.pc t q u).commits = if l.committing then 1 else 0
    omega
  excl := hexcl
  sound := by
    intro u
    show (update S.pc t q u).Sound l.lh
    by_cases hu : u = t
    · subst hu
      rwa [update_self]
    · rw [update_of_ne hu]
      exact hothers u
  reserve := by
    have hsum := sum_update_add Pc.unused S.pc t q
    show l.lh.length + ∑ u, (update S.pc t q u).unused ≤ logSize
    omega

/-! ## The invariant, action by action -/

theorem Inv.of_beginOp {S S' : LogSys ι} (h : Inv S) (ht : S.pc t = .outside)
    (hs : beginOp S t = some (.ok S')) : Inv S' := by
  unfold beginOp at hs
  split at hs
  · exact absurd hs (by simp)
  rename_i hcomm
  split at hs
  · exact absurd hs (by simp)
  rename_i hadm
  rw [some.injEq, Except.ok.injEq] at hs
  subst hs
  refine h.move rfl h.nodup (by simp [ht]) (by simp [ht]) ?_ h.sound ⟨by simp, by simp⟩ ?_
  · intro hc
    exact absurd hc hcomm
  · -- the admission test leaves `MAXOPBLOCKS` for the newcomer and for each one inside
    have hbound := h.unused_le
    simp only [ht, Pc.counts_inOp, Pc.counts_outside, Finset.card_empty, maxOpBlocks,
      Nat.cast_ofNat] at hadm hbound ⊢
    omega

variable {used : Finset UInt32}

theorem Inv.of_logWrite {S S' : LogSys ι} {s : UInt32} (h : Inv S) (ht : S.pc t = .inOp used)
    (hb : (insert s used).card ≤ maxOpBlocks) (hs : logWrite S t used s = some (.ok S')) : Inv S' := by
  unfold logWrite at hs
  split at hs
  · exact absurd hs (by simp)
  split at hs
  · exact absurd hs (by simp)
  rw [some.injEq, Except.ok.injEq] at hs
  subst hs
  have hsound := h.sound t
  rw [ht] at hsound
  refine h.move rfl h.nodup (by simp [ht]) (by simp [ht]) h.excl h.sound ⟨hsound.1, hb⟩ ?_
  have := h.reserve
  simp only [ht, Pc.counts_inOp, Pc.counts_logging]
  omega

theorem Inv.of_append {s : UInt32} (h : Inv S) (ht : S.pc t = .logging used s) :
    Inv { log := S.log.record s
          pc := update S.pc t (.inOp (insert s used)) } := by
  have hsound := h.sound t
  rw [ht] at hsound
  have hgrow : ∀ r ∈ S.log.lh, r ∈ (S.log.record s).lh := fun r hr =>
    (Log.mem_lh_record _ _ _).mpr (Or.inl hr)
  refine h.move (by simp) (Log.nodup_lh_record h.nodup s) (by simp [ht]) (by simp [ht])
    (by simpa using h.excl) (fun u => (h.sound u).mono hgrow) ⟨?_, hsound.2⟩ ?_
  · intro r hr
    rcases Finset.mem_insert.mp hr with rfl | hr
    · exact (Log.mem_lh_record _ _ _).mpr (Or.inr rfl)
    · exact hgrow r (hsound.1 r hr)
  · have hres := h.reserve
    have hle := hsound.2
    have hcard : used.card ≤ (insert s used).card := Finset.card_le_card (Finset.subset_insert s used)
    simp only [ht, Pc.counts_inOp, Pc.counts_logging, Log.length_lh_record]
    split
    · omega
    · -- a sector that is not absorbed is new to the operation as well
      rename_i hnot
      have hnew : s ∉ used := fun hs => hnot (hsound.1 s hs)
      have hins := Finset.card_insert_of_notMem hnew
      omega

theorem Inv.of_endOp {S S' : LogSys ι} (h : Inv S) (ht : S.pc t = .inOp used)
    (hs : endOp S t = some (.ok S')) : Inv S' := by
  have hres := h.reserve
  unfold endOp at hs
  split at hs
  · exact absurd hs (by simp)
  rename_i hcomm
  split at hs
  · rename_i hlast
    rw [some.injEq, Except.ok.injEq] at hs
    subst hs
    refine h.move rfl h.nodup (by simp [ht]) (by simp [ht, hcomm]) (fun _ => hlast) h.sound
      trivial ?_
    simp only [ht, Pc.counts_committing]
    omega
  · rw [some.injEq, Except.ok.injEq] at hs
    subst hs
    refine h.move rfl h.nodup (by simp [ht]) (by simp [ht]) ?_ h.sound trivial ?_
    · intro hc
      exact absurd hc hcomm
    · simp only [ht, Pc.counts_outside]
      omega

theorem Inv.of_commit (h : Inv S) (ht : S.pc t = .committing) :
    Inv { log := { S.log with lh := [] }
          pc := update S.pc t .committed } := by
  have hcomm : S.log.committing = true := h.committing_of_commits (t := t) (by simp [ht])
  have hres := h.reserve
  refine h.move rfl (by simp) (by simp [ht]) (by simp [ht]) h.excl (fun u => ?_) trivial ?_
  · -- nobody is inside an operation, so nobody relies on the header
    exact .of_active (h.active_eq_zero (h.excl hcomm) u)
  · simp only [ht, Pc.counts_committed, Pc.counts_committing, List.length_nil]
    omega

theorem Inv.of_finish (h : Inv S) (ht : S.pc t = .committed) :
    Inv { log := { S.log with committing := false }
          pc := update S.pc t .outside } := by
  have hcomm : S.log.committing = true := h.committing_of_commits (t := t) (by simp [ht])
  have hres := h.reserve
  refine h.move rfl h.nodup (by simp [ht]) (by simp [ht, hcomm]) (by simp) h.sound trivial ?_
  simp only [ht, Pc.counts_outside, Pc.counts_committed]
  omega

/-- What thread `t` can do in the state `S`, and how it ends. -/
inductive Moves (S : LogSys ι) (t : ι) : LogAct → Except LogPanic (LogSys ι) → Prop
  | beginOp {r : Except LogPanic (LogSys ι)} (hpc : S.pc t = .outside)
      (hs : beginOp S t = some r) : Moves S t .beginOp r
  | logWrite {s : UInt32} {used : Finset UInt32} {r : Except LogPanic (LogSys ι)} (hpc : S.pc t = .inOp used)
      (hs : logWrite S t used s = some r) : Moves S t (.logWrite s) r
  | append {s : UInt32} {used : Finset UInt32} (hpc : S.pc t = .logging used s) :
      Moves S t .append (.ok
        { log := S.log.record s
          pc := update S.pc t (.inOp (insert s used)) })
  | endOp {used : Finset UInt32} {r : Except LogPanic (LogSys ι)} (hpc : S.pc t = .inOp used)
      (hs : endOp S t = some r) : Moves S t .endOp r
  | commit (hpc : S.pc t = .committing) :
      Moves S t .commit (.ok
        { log := { S.log with lh := [] }
          pc := update S.pc t .committed })
  | finish (hpc : S.pc t = .committed) :
      Moves S t .finish (.ok
        { log := { S.log with committing := false }
          pc := update S.pc t .outside })

variable {r : Except LogPanic (LogSys ι)}

omit [Fintype ι] in
theorem Moves.of_step {a : LogAct} (hs : step S (t, a) = some r) : Moves S t a r := by
  unfold step at hs
  cases a with
  | beginOp =>
    cases hpc : S.pc t <;> simp only [hpc, reduceCtorEq] at hs
    exact .beginOp hpc hs
  | logWrite s =>
    cases hpc : S.pc t <;> simp only [hpc, reduceCtorEq] at hs
    exact .logWrite hpc hs
  | append =>
    cases hpc : S.pc t <;> simp only [hpc, reduceCtorEq, some.injEq] at hs
    exact hs ▸ .append hpc
  | endOp =>
    cases hpc : S.pc t <;> simp only [hpc, reduceCtorEq] at hs
    exact .endOp hpc hs
  | commit =>
    cases hpc : S.pc t <;> simp only [hpc, reduceCtorEq, some.injEq] at hs
    exact hs ▸ .commit hpc
  | finish =>
    cases hpc : S.pc t <;> simp only [hpc, reduceCtorEq, some.injEq] at hs
    exact hs ▸ .finish hpc

theorem Inv.of_step {S S' : LogSys ι} {a : ι × LogAct} (h : Inv S) (hb : Budget S a)
    (hs : step S a = some (.ok S')) : Inv S' := by
  obtain ⟨t, a⟩ := a
  cases Moves.of_step hs with
  | beginOp hpc hs => exact h.of_beginOp hpc hs
  | logWrite hpc hs =>
    simp only [Budget, hpc] at hb
    exact h.of_logWrite hpc hb hs
  | append hpc => exact h.of_append hpc
  | endOp hpc hs => exact h.of_endOp hpc hs
  | commit hpc => exact h.of_commit hpc
  | finish hpc => exact h.of_finish hpc

/-! ## The room in the log -/

/-- The state is as the rest of the kernel relies on: the header's sectors fit the array
`log.lh.sector` and the log blocks after the header block, none is there twice, and a
commit runs alone. -/
structure Fits (S : LogSys ι) : Prop where
  array : S.log.lh.length ≤ logSize
  region : S.log.lh.length < S.log.size
  nodup : S.log.lh.Nodup
  excl : S.log.committing = true → S.log.outstanding = 0

/-- How a step ends well: without a panic, in a state that fits. -/
def Fine (r : Except LogPanic (LogSys ι)) : Prop := ∃ S', r = .ok S' ∧ Fits S'

omit [DecidableEq ι] in
theorem Inv.fits (h : Inv S) (hn : S.log.lh.length < S.log.size) : Fits S where
  array := by
    have := h.reserve
    omega
  region := hn
  nodup := h.nodup
  excl := h.excl

/-- The freshly booted system with three threads. -/
def booted : LogSys (Fin 3) where
  log := { start := 994, size := nlog, outstanding := 0, committing := false, lh := [] }
  pc := fun _ => .outside

end Xv6.Admission
