import Mathlib.Logic.Function.Basic
import Mathlib.Tactic.Common

/-!
# `spinlock.c`

Spin locks, step by step: `acquire` and `release` are lists of operations (`LockOp`), and
other processors may do anything between two of them.  A lock records that it is taken and,
a step later, by which processor; a processor counts how often it has disabled interrupts.

How far a processor has come with each lock is not in the source; it is the `Grip` that the
operations move.  `Locks.Agrees` says that the locks and the counters are as the grips of the
processors say: a lock is taken by the one processor that is between its `xchg` and its
release, and interrupts are off where the counter is positive.
-/

namespace Xv6.Sleep

open Function

variable {L : Type} {ncpu : ℕ}

/-- `struct spinlock` -/
structure Spinlock (ncpu : ℕ) where
  locked : Bool
  cpu : Option (Fin ncpu)

/-- What a processor knows of its interrupts: `cpu->ncli`, `cpu->intena` and the flag. -/
structure Cli where
  ncli : ℕ
  intena : Bool
  intr : Bool

/-- The locks `L` and the interrupts of the processors. -/
structure Locks (L : Type) (ncpu : ℕ) where
  lock : L → Spinlock ncpu
  cli : Fin ncpu → Cli

/-- The steps of `acquire` and `release`. -/
inductive LockOp (L : Type) where
  | pushcli
  /-- `if(holding(lk)) panic("acquire")` -/
  | checkFree (l : L)
  /-- `while(xchg(&lk->locked, 1) != 0)` -/
  | xchg (l : L)
  /-- `lk->cpu = cpu` -/
  | mark (l : L)
  /-- `if(!holding(lk)) panic("release"); lk->cpu = 0` -/
  | unmark (l : L)
  /-- `xchg(&lk->locked, 0)` -/
  | unlock (l : L)
  | popcli
  deriving DecidableEq

def acquire (l : L) : List (LockOp L) := [.pushcli, .checkFree l, .xchg l, .mark l]

def release (l : L) : List (LockOp L) := [.unmark l, .unlock l, .popcli]

/-- The panics. -/
inductive LockPanic where
  | acquire
  | release
  /-- `"popcli - interruptible"` -/
  | interruptible
  | popcli
  deriving DecidableEq

namespace Cli

def pushcli (k : Cli) : Cli :=
  { ncli := k.ncli + 1, intena := if k.ncli = 0 then k.intr else k.intena, intr := false }

def popcli (k : Cli) : Except LockPanic Cli :=
  if k.intr then .error .interruptible
  else if k.ncli = 0 then .error .popcli
  else .ok { k with ncli := k.ncli - 1, intr := decide (k.ncli = 1) && k.intena }

end Cli

variable [DecidableEq L]

namespace Locks

/-- `holding`, on processor `c`. -/
def holding (K : Locks L ncpu) (c : Fin ncpu) (l : L) : Bool :=
  (K.lock l).locked && (K.lock l).cpu == some c

/-- Change one lock. -/
def setLock (K : Locks L ncpu) (l : L) (f : Spinlock ncpu → Spinlock ncpu) : Locks L ncpu :=
  { K with lock := update K.lock l (f (K.lock l)) }

/-- Change what processor `c` knows of its interrupts. -/
def setCli (K : Locks L ncpu) (c : Fin ncpu) (k : Cli) : Locks L ncpu :=
  { K with cli := update K.cli c k }

/-- Processor `c` performs a step; `none` if it has to spin. -/
def run (K : Locks L ncpu) (c : Fin ncpu) : LockOp L → Option (Except LockPanic (Locks L ncpu))
  | .pushcli => some (.ok (K.setCli c (K.cli c).pushcli))
  | .checkFree l => if K.holding c l then some (.error .acquire) else some (.ok K)
  | .xchg l =>
    if (K.lock l).locked then none else some (.ok (K.setLock l fun x => { x with locked := true }))
  | .mark l => some (.ok (K.setLock l fun x => { x with cpu := some c }))
  | .unmark l =>
    if K.holding c l then some (.ok (K.setLock l fun x => { x with cpu := none }))
    else some (.error .release)
  | .unlock l => some (.ok (K.setLock l fun x => { x with locked := false }))
  | .popcli =>
    match (K.cli c).popcli with
    | .error p => some (.error p)
    | .ok k => some (.ok (K.setCli c k))

end Locks

/-! ## Grips -/

/-- How far a processor has come with a lock. -/
inductive Stage where
  | out
  /-- After the `xchg` of `acquire`. -/
  | taken
  /-- Between `acquire` and `release`. -/
  | held
  /-- Before the `xchg` of `release`. -/
  | left
  deriving DecidableEq

/-- What a processor has of the locks. -/
structure Grip (L : Type) where
  ncli : ℕ
  stage : L → Stage

namespace Grip

/-- Nothing. -/
def none : Grip L := ⟨0, fun _ => .out⟩

/-- One lock, and nothing else. -/
def only (l : L) : Grip L := ⟨1, update (fun _ => .out) l .held⟩

/-- The lock is in another stage. -/
def set (g : Grip L) (l : L) (s : Stage) : Grip L := { g with stage := update g.stage l s }

omit [DecidableEq L] in
@[simp] theorem none_ncli : (none : Grip L).ncli = 0 := rfl

omit [DecidableEq L] in
@[simp] theorem none_stage (l : L) : (none : Grip L).stage l = .out := rfl

@[simp] theorem only_ncli (l : L) : (only l).ncli = 1 := rfl

@[simp] theorem only_stage (l : L) : (only l).stage = update (fun _ => .out) l .held := rfl

@[simp] theorem set_ncli (g : Grip L) (l : L) (s : Stage) : (g.set l s).ncli = g.ncli := rfl

@[simp] theorem set_stage (g : Grip L) (l : L) (s : Stage) :
    (g.set l s).stage = update g.stage l s := rfl

end Grip

/-- What it takes to perform a step. -/
@[simp] def LockOp.pre : LockOp L → Grip L → Prop
  | .pushcli, _ => True
  | .checkFree l, g => g.stage l = .out
  | .xchg l, g => g.stage l = .out ∧ 0 < g.ncli
  | .mark l, g => g.stage l = .taken
  | .unmark l, g => g.stage l = .held
  | .unlock l, g => g.stage l = .left
  | .popcli, g => 0 < g.ncli ∧ (g.ncli = 1 → ∀ l, g.stage l = .out)

/-- What the step leaves. -/
@[simp] def LockOp.next : LockOp L → Grip L → Grip L
  | .pushcli, g => { g with ncli := g.ncli + 1 }
  | .checkFree _, g => g
  | .xchg l, g => g.set l .taken
  | .mark l, g => g.set l .held
  | .unmark l, g => g.set l .left
  | .unlock l, g => g.set l .out
  | .popcli, g => { g with ncli := g.ncli - 1 }

/-- **The locks are as the grips of the processors say.** -/
structure Locks.Agrees (K : Locks L ncpu) (g : Fin ncpu → Grip L) : Prop where
  ncli : ∀ c, (K.cli c).ncli = (g c).ncli
  intr : ∀ c, 0 < (g c).ncli → (K.cli c).intr = false
  locked : ∀ l, (K.lock l).locked = true ↔ ∃ c, (g c).stage l ≠ .out
  excl : ∀ {l c d}, (g c).stage l ≠ .out → (g d).stage l ≠ .out → c = d
  owner : ∀ l c, (K.lock l).cpu = some c ↔ (g c).stage l = .held

namespace Locks.Agrees

variable {K : Locks L ncpu} {g : Fin ncpu → Grip L} {c : Fin ncpu} {l : L}

omit [DecidableEq L] in
theorem holding_iff (h : K.Agrees g) : K.holding c l = true ↔ (g c).stage l = .held := by
  rw [holding, Bool.and_eq_true, beq_iff_eq, h.owner]
  refine ⟨fun hh => hh.2, fun hh => ⟨(h.locked l).mpr ⟨c, by simp [hh]⟩, hh⟩⟩

omit [DecidableEq L] in
theorem setCli (h : K.Agrees g) {k : Cli} {x : Grip L} (hx : x.stage = (g c).stage)
    (hn : k.ncli = x.ncli) (hi : 0 < x.ncli → k.intr = false) :
    (K.setCli c k).Agrees (update g c x) := by
  have hstage : ∀ d, ((update g c x) d).stage = (g d).stage := by
    intro d
    by_cases hd : d = c
    · subst hd
      simpa using hx
    · simp [hd]
  refine ⟨fun d => ?_, fun d hd => ?_, fun l => ?_, fun hd he => ?_, fun l d => ?_⟩
  · by_cases hd : d = c
    · subst hd
      simpa [Locks.setCli] using hn
    · simpa [Locks.setCli, hd] using h.ncli d
  · by_cases hdc : d = c
    · subst hdc
      simpa [Locks.setCli] using hi (by simpa using hd)
    · simpa [Locks.setCli, hdc] using h.intr d (by simpa [hdc] using hd)
  · simp only [hstage]
    exact h.locked l
  · rw [hstage] at hd he
    exact h.excl hd he
  · rw [hstage]
    exact h.owner l d

theorem setLock (h : K.Agrees g) {f : Spinlock ncpu → Spinlock ncpu} {s : Stage}
    (halone : ∀ d, d ≠ c → (g d).stage l = .out)
    (hlocked : (f (K.lock l)).locked = true ↔ s ≠ .out)
    (hcpu : ∀ d, (f (K.lock l)).cpu = some d ↔ d = c ∧ s = .held) :
    (K.setLock l f).Agrees (update g c ((g c).set l s)) := by
  have hself : ((update g c ((g c).set l s)) c).stage l = s := by simp
  have hother : ∀ d, d ≠ c → (update g c ((g c).set l s) d).stage l = .out := by
    intro d hd
    simpa [hd] using halone d hd
  have hlock : ∀ m, m ≠ l → ∀ d, ((update g c ((g c).set l s)) d).stage m = (g d).stage m := by
    intro m hm d
    by_cases hd : d = c
    · subst hd
      simp [hm]
    · simp [hd]
  have hncli : ∀ d, ((update g c ((g c).set l s)) d).ncli = (g d).ncli := by
    intro d
    by_cases hd : d = c
    · subst hd
      simp
    · simp [hd]
  refine ⟨fun d => ?_, fun d hd => ?_, fun m => ?_, fun {m d e} hd he => ?_, fun m d => ?_⟩
  · rw [hncli]
    exact h.ncli d
  · rw [hncli] at hd
    exact h.intr d hd
  · by_cases hm : m = l
    · subst hm
      simp only [Locks.setLock, update_self, hlocked]
      constructor
      · intro hs
        exact ⟨c, by rwa [hself]⟩
      · rintro ⟨d, hd⟩
        by_cases hdc : d = c
        · rwa [hdc, hself] at hd
        · exact absurd (hother d hdc) hd
    · simp only [Locks.setLock, update_of_ne hm, hlock m hm]
      exact h.locked m
  · by_cases hm : m = l
    · subst hm
      have hc : ∀ x, (update g c ((g c).set m s) x).stage m ≠ .out → x = c := by
        intro x hx
        by_contra hxc
        exact hx (hother x hxc)
      rw [hc d hd, hc e he]
    · rw [hlock m hm] at hd he
      exact h.excl hd he
  · by_cases hm : m = l
    · subst hm
      simp only [Locks.setLock, update_self, hcpu]
      by_cases hdc : d = c
      · rw [hdc, hself]
        simp
      · rw [hother d hdc]
        simp [hdc]
    · simp only [Locks.setLock, update_of_ne hm, hlock m hm]
      exact h.owner m d

omit [DecidableEq L] in
theorem alone (h : K.Agrees g) (hc : (g c).stage l ≠ .out) (d : Fin ncpu) (hd : d ≠ c) :
    (g d).stage l = .out := by
  by_contra hne
  exact hd (h.excl hne hc)

/-- **A step that is in order does not panic**, and the locks agree afterwards; it has to
wait only for a lock that somebody else has. -/
theorem run (h : K.Agrees g) {e : LockOp L} (hpre : e.pre (g c)) :
    (∃ l d, e = .xchg l ∧ K.run c e = none ∧ (g d).stage l ≠ .out) ∨
      ∃ K', K.run c e = some (.ok K') ∧ K'.Agrees (update g c (e.next (g c))) := by
  cases e with
  | pushcli =>
    refine .inr ⟨_, rfl, h.setCli rfl ?_ fun _ => rfl⟩
    show (K.cli c).ncli + 1 = _
    rw [h.ncli]
    rfl
  | checkFree l =>
    have hfree : K.holding c l = false := by
      rw [← Bool.not_eq_true, h.holding_iff, show (g c).stage l = .out from hpre]
      simp
    refine .inr ⟨K, by simp [Locks.run, hfree], ?_⟩
    simpa using h
  | xchg l =>
    obtain ⟨hout, -⟩ := hpre
    by_cases hl : (K.lock l).locked = true
    · obtain ⟨d, hd⟩ := (h.locked l).mp hl
      exact .inl ⟨l, d, rfl, by simp [Locks.run, hl], hd⟩
    · have hnone : ∀ d, (g d).stage l = .out := by
        intro d
        by_contra hd
        exact hl ((h.locked l).mpr ⟨d, hd⟩)
      refine .inr ⟨_, if_neg hl, h.setLock (fun d _ => hnone d) (by simp) fun d => ?_⟩
      rw [h.owner, hnone]
      simp
  | mark l =>
    have htaken : (g c).stage l ≠ .out := by simp [show (g c).stage l = .taken from hpre]
    refine .inr ⟨_, rfl, h.setLock (h.alone htaken) ?_ fun d => by simp [eq_comm]⟩
    simpa using (h.locked l).mpr ⟨c, htaken⟩
  | unmark l =>
    have hheld : (g c).stage l ≠ .out := by simp [show (g c).stage l = .held from hpre]
    refine .inr ⟨_, if_pos (h.holding_iff.mpr hpre),
      h.setLock (h.alone hheld) ?_ fun d => by simp⟩
    simpa using (h.locked l).mpr ⟨c, hheld⟩
  | unlock l =>
    have hleft : (g c).stage l = .left := hpre
    have halone := h.alone (c := c) (l := l) (by simp [hleft])
    refine .inr ⟨_, rfl, h.setLock halone (by simp) fun d => ?_⟩
    rw [h.owner]
    by_cases hdc : d = c
    · simp [hdc, hleft]
    · simp [halone d hdc]
  | popcli =>
    obtain ⟨hpos, -⟩ := hpre
    have hn := h.ncli c
    have hi := h.intr c hpos
    have hpop : (K.cli c).popcli = .ok
        ⟨(g c).ncli - 1, (K.cli c).intena, decide ((g c).ncli = 1) && (K.cli c).intena⟩ := by
      simp [Cli.popcli, hi, hn, Nat.pos_iff_ne_zero.mp hpos]
    refine .inr ⟨_, by rw [Locks.run, hpop], h.setCli rfl rfl fun h1 => ?_⟩
    have h1' : (g c).ncli ≠ 1 := by
      intro he
      simp [he] at h1
    simp [h1']

end Locks.Agrees

end Xv6.Sleep
