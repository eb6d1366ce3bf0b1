import Xv6.Sleep.Basic

/-!
# What the code of `sleep` and `wakeup` may rely on

The instructions move what is known of their thread (`Ctx`): how far it has come with its
locks, and whether it has seen the condition false (`saw`), has let go of `lk` since
(`promised`), or has made the condition true (`armed`).  `Safe` says that code is in order
for what is known; `safe_role`, `safe_sleep`, `safe_yield`, `safe_forkret` and
`ssafe_scheduler` say so of the code of the functions.
-/

namespace Xv6.Sleep

open Proc (RunState Slot Chan)

/-- What a thread knows of the condition. -/
inductive Know where
  | idle
  /-- It has seen the condition false, and has `lk` since. -/
  | saw
  /-- It has let go of `lk`, and is going to sleep. -/
  | promised
  /-- It has made the condition true, and is going to call `wakeup1`. -/
  | armed
  deriving DecidableEq

/-- What is known of a thread. -/
structure Ctx where
  ncli : ℕ
  ptable : Stage
  lk : Stage
  know : Know
  /-- It has changed its state in order to call `sched`. -/
  off : Bool
  deriving DecidableEq

namespace Ctx

/-- A thread that has nothing. -/
def start : Ctx := ⟨0, .out, .out, .idle, false⟩

/-- A thread that has been switched out: when it is back it has `ptable.lock`. -/
def rest : Ctx := ⟨1, .held, .out, .idle, false⟩

/-- A thread at the test of its loop. -/
def testing : Ctx := ⟨1, .out, .held, .idle, false⟩

/-- What the processor of the thread has of the locks. -/
def grip (g : Ctx) : Grip Lock where
  ncli := g.ncli
  stage
    | .ptable => g.ptable
    | .lk => g.lk

/-- The lock is in another stage. -/
def set (g : Ctx) : Lock → Stage → Ctx
  | .ptable, s => { g with ptable := s }
  | .lk, s => { g with lk := s }

@[simp] theorem grip_ncli (g : Ctx) : g.grip.ncli = g.ncli := rfl

@[simp] theorem grip_ptable (g : Ctx) : g.grip.stage .ptable = g.ptable := rfl

@[simp] theorem grip_lk (g : Ctx) : g.grip.stage .lk = g.lk := rfl

theorem grip_set (g : Ctx) (l : Lock) (s : Stage) : (g.set l s).grip = g.grip.set l s := by
  have hstage : ∀ m, (g.set l s).grip.stage m = (g.grip.set l s).stage m := by
    intro m
    cases l <;> cases m <;> rfl
  cases l <;> exact congrArg (Grip.mk g.ncli) (funext hstage)

end Ctx

theorem only_ptable {know : Know} {off : Bool} :
    Grip.only .ptable = Ctx.grip ⟨1, .held, .out, know, off⟩ := by
  refine congrArg (Grip.mk 1) (funext fun l => ?_)
  cases l <;> rfl

/-- What a step of `acquire` or `release` leaves. -/
def LockOp.after : LockOp Lock → Ctx → Ctx
  | .pushcli, g => { g with ncli := g.ncli + 1 }
  | .checkFree _, g => g
  | .xchg l, g => g.set l .taken
  | .mark l, g => g.set l .held
  | .unmark l, g => g.set l .left
  | .unlock l, g => g.set l .out
  | .popcli, g => { g with ncli := g.ncli - 1 }

theorem LockOp.grip_after (e : LockOp Lock) (g : Ctx) : (e.after g).grip = e.next g.grip := by
  cases e with
  | pushcli | checkFree | popcli => rfl
  | xchg l | mark l | unmark l | unlock l => exact g.grip_set l _

namespace LockOp

variable {e : LockOp Lock} {g : Ctx}

@[simp] theorem after_off (e : LockOp Lock) (g : Ctx) : (e.after g).off = g.off := by
  cases e with
  | pushcli | checkFree | popcli => rfl
  | xchg l | mark l | unmark l | unlock l => cases l <;> rfl

@[simp] theorem after_know (e : LockOp Lock) (g : Ctx) : (e.after g).know = g.know := by
  cases e with
  | pushcli | checkFree | popcli => rfl
  | xchg l | mark l | unmark l | unlock l => cases l <;> rfl

theorem lk_ne_out (he : e ≠ .unlock .lk) (h : g.lk ≠ .out) : (e.after g).lk ≠ .out := by
  cases e with
  | pushcli | checkFree | popcli => exact h
  | xchg l | mark l | unmark l => cases l <;> simp [after, Ctx.set, h]
  | unlock l =>
    cases l with
    | ptable => exact h
    | lk => exact absurd rfl he

theorem ptable_eq_out (he : e ≠ .unlock .ptable) (h : (e.after g).ptable = .out) :
    g.ptable = .out := by
  cases e with
  | pushcli | checkFree | popcli => exact h
  | xchg l | mark l | unmark l =>
    cases l with
    | ptable => simp [after, Ctx.set] at h
    | lk => exact h
  | unlock l =>
    cases l with
    | ptable => exact absurd rfl he
    | lk => exact h

theorem ptable_held (hpre : e.pre g.grip) (he : e ≠ .unmark .ptable) (h : g.ptable = .held) :
    (e.after g).ptable = .held := by
  cases e with
  | pushcli | checkFree | popcli => exact h
  | xchg l | mark l | unlock l =>
    cases l with
    | ptable => simp [h] at hpre
    | lk => exact h
  | unmark l =>
    cases l with
    | ptable => exact absurd rfl he
    | lk => exact h

theorem eq_xchg (h : g.ptable = .out) (h' : (e.after g).ptable ≠ .out) (hpre : e.pre g.grip) :
    e = .xchg .ptable := by
  cases e with
  | pushcli | checkFree | popcli => exact absurd h h'
  | mark l | unmark l | unlock l =>
    cases l with
    | ptable => simp [h] at hpre
    | lk => exact absurd h h'
  | xchg l =>
    cases l with
    | ptable => rfl
    | lk => exact absurd h h'

theorem eq_start (hpre : e.pre g.grip) (hg : g.ncli = 0 → g = .start)
    (hlast : e = .popcli → g.ncli = 1 → g.know = .idle) (hoff : g.off = false)
    (h : (e.after g).ncli = 0) : e.after g = .start := by
  cases e with
  | pushcli => simp [after] at h
  | checkFree => exact hg h
  | xchg l =>
    have hn : g.ncli = 0 := by cases l <;> exact h
    simp [hn] at hpre
  | mark l | unmark l | unlock l =>
    have hn : g = .start := hg (by cases l <;> exact h)
    subst hn
    cases l <;> simp [Ctx.start] at hpre
  | popcli =>
    obtain ⟨hpos, hout⟩ := hpre
    have h1 : g.ncli = 1 := by
      simp only [after, Ctx.grip_ncli] at h hpos
      omega
    have hpt : g.ptable = .out := hout h1 .ptable
    have hlk : g.lk = .out := hout h1 .lk
    have hk := hlast rfl h1
    obtain ⟨n, p, l, k, o⟩ := g
    subst h1 hpt hlk hk hoff
    rfl

end LockOp

/-- The threads that the next `wakeup1` in the code is going to look at. -/
def pending : List Ins → List Slot
  | [] => []
  | .setC true :: _ => []
  | .wakeup1 _ ss :: _ => ss
  | _ :: is => pending is

theorem inWakeup_of_pending {u : Slot} {is : List Ins} (h : u ∈ pending is) :
    inWakeup is = true := by
  induction is with
  | nil => exact absurd h List.not_mem_nil
  | cons i is ih =>
    cases i with
    | wakeup1 => rfl
    | setC b =>
      cases b with
      | true => exact absurd h List.not_mem_nil
      | false => exact ih h
    | _ => exact ih h

/-! ## The rules -/

/-- What it takes to execute an instruction. -/
@[simp] def Ins.pre (chan : Chan) : Ins → Ctx → Prop
  | .lock e, g => e.pre g.grip ∧ g.off = false ∧
      (e = .unlock .lk → g.know = .saw → g.ptable = .held) ∧
      (e = .unmark .ptable ∨ e = .unlock .ptable → g.know = .idle) ∧
      (e = .popcli → g.ncli = 1 → g.know = .idle)
  | .loop, g => g = .testing
  | .setC _, g => g = .testing
  | .setChan _, g => g.off = false
  | .setState st, g => g.off = false ∧ g.ptable = .held ∧
      (st = .runnable ∧ g.know = .idle ∨ st = .sleeping ∧ g.know = .promised)
  | .sched, g => g = { Ctx.rest with off := true }
  | .swtch, g => g = { Ctx.rest with off := true }
  | .restore, g => g.off = false
  | .wakeup1 ch _, g => ch = chan ∧ g.know = .armed ∧ g.ptable = .held ∧ g.off = false
  | .iret, g => g = .start

/-- What is known afterwards. -/
@[simp] def Ins.next : Ins → Ctx → Ctx
  | .lock e, g =>
    { e.after g with know := if e = .unlock .lk ∧ g.know = .saw then .promised else g.know }
  | .setC b, g => { g with know := if b then .armed else .idle }
  | .setState _, g => { g with know := .idle, off := true }
  | .swtch, g => { g with off := false }
  | .wakeup1 _ _, g => { g with know := .idle }
  | _, g => g

/-- The code is in order for what is known. -/
@[simp] def Safe (chan : Chan) : List Ins → Ctx → Prop
  | [], g => g = .start
  | i :: is, g => i.pre chan g ∧ (i = .setC true → pending is = slots) ∧ Safe chan is (i.next g)

theorem Lock.forall_iff {P : Lock → Prop} : (∀ l, P l) ↔ P .ptable ∧ P .lk := by
  constructor
  · exact fun h => ⟨h _, h _⟩
  · rintro ⟨hp, hl⟩ (_ | _)
    · exact hp
    · exact hl

section Code

variable (chan : Chan)

theorem safe_forkret : Safe chan forkret .rest := by
  simp [forkret, rel, release, LockOp.after, Ctx.start, Ctx.rest, Ctx.set, Lock.forall_iff]

theorem safe_yield {is : List Ins} (h : Safe chan is .start) :
    Safe chan (yield ++ .iret :: is) .start := by
  simpa [yield, sched, acq, rel, acquire, release, LockOp.after, Ctx.start, Ctx.rest, Ctx.set,
    Lock.forall_iff] using h

theorem safe_role (r : Role) : Safe chan (r.code chan) .start := by
  cases r with
  | waiter consume =>
    cases consume <;>
      simp [Role.code, acq, rel, acquire, release, LockOp.after, Ctx.start, Ctx.testing, Ctx.set,
        Lock.forall_iff]
  | waker =>
    simp [Role.code, wakeup, acq, rel, acquire, release, LockOp.after, Ctx.start, Ctx.testing, Ctx.set,
      Lock.forall_iff, pending]

theorem safe_sleep {is : List Ins} (h : Safe chan (.loop :: is) .testing) :
    Safe chan (sleep chan ++ .loop :: is) { Ctx.testing with know := .saw } := by
  simpa [sleep, sched, acq, rel, acquire, release, LockOp.after, Ctx.testing, Ctx.rest, Ctx.set,
    Lock.forall_iff] using h

end Code

/-! ## The scheduler -/

/-- What it takes to execute an instruction of `scheduler`. -/
@[simp] def SIns.pre : SIns → Grip Lock → Prop
  | .lock e, g => e.pre g
  | .sti, g => g.ncli = 0
  | .scan _, g => g = .only .ptable

@[simp] def SIns.next : SIns → Grip Lock → Grip Lock
  | .lock e, g => e.next g
  | _, g => g

/-- The rest of a round of `scheduler` is in order. -/
@[simp] def SSafe : List SIns → Grip Lock → Prop
  | [], g => g = .none
  | i :: is, g => i.pre g ∧ SSafe is (i.next g)

theorem ssafe_scheduler : SSafe scheduler .none := by
  simp [scheduler, acquire, release, Grip.none, Grip.only, Grip.set]

end Xv6.Sleep
