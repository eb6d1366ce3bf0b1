import Xv6.Lib.Transition
import Xv6.Proc.Basic
import Xv6.Sleep.Spinlock

/-!
# `sleep` and `wakeup`, step by step

Threads that wait for a condition and threads that make it true, as `proc.c` lets them: a
waiter runs `acquire(lk); while(!C) sleep(chan, lk)`, a waker runs
`acquire(lk); C = true; wakeup(chan); release(lk)`.  The code of the functions is a list of
instructions, in the order of the source, and the processors execute them one at a time in
any order.  That includes the steps of the locks, the scheduler of each processor, `forkret`
and the clock interrupt that makes a thread `yield`.

* A thread that calls `sched` switches to the scheduler of its processor, which goes on where
  it was; `ptable.lock` is held across the switch, by the processor.
* `wakeup1` and the loop of the scheduler go from one thread to the next in one step each.
  They pass over processes that are not ready; `ready` says which ones are, and does not
  change.
* A waiter has the lock when it leaves its loop.  It may then make the condition false, which
  is what readers of a buffer do, and releases the lock.
-/

namespace Xv6.Sleep

open Transition
open Proc (RunState PId TId Slot Chan)

/-- The locks: `ptable.lock`, and the one that `sleep` is called with. -/
inductive Lock where
  | ptable
  | lk
  deriving DecidableEq

/-- The instructions of a thread. -/
inductive Ins where
  | lock (e : LockOp Lock)
  /-- `while(!C) sleep(chan, lk)` -/
  | loop
  /-- The condition becomes true or false. -/
  | setC (b : Bool)
  | setChan (chan : Chan)
  | setState (st : RunState)
  /-- `sched` up to `swtch`. -/
  | sched
  | swtch
  | restore
  /-- The loop of `wakeup1` over the threads still to be looked at. -/
  | wakeup1 (chan : Chan) (slots : List Slot)
  /-- The return from an interrupt. -/
  | iret

/-- The instructions of `scheduler`. -/
inductive SIns where
  | lock (e : LockOp Lock)
  | sti
  /-- The loop over the threads still to be looked at. -/
  | scan (slots : List Slot)

/-! ## The functions of `proc.c` -/

/-- All threads, in the order of the loops. -/
def slots : List Slot :=
  (List.finRange nproc).flatMap fun p => (List.finRange nthread).map fun t => (p, t)

theorem mem_slots (s : Slot) : s ∈ slots := by
  simp [slots]

def acq (l : Lock) : List Ins := (acquire l).map .lock

def rel (l : Lock) : List Ins := (release l).map .lock

def sched : List Ins := [.sched, .swtch, .restore]

/-- `sleep(chan, lk)` -/
def sleep (chan : Chan) : List Ins :=
  acq .ptable ++ rel .lk ++ [.setChan chan, .setState .sleeping] ++ sched ++
    [.setChan .null] ++ rel .ptable ++ acq .lk

def wakeup (chan : Chan) : List Ins := acq .ptable ++ [.wakeup1 chan slots] ++ rel .ptable

def yield : List Ins := acq .ptable ++ [.setState .runnable] ++ sched ++ rel .ptable

def forkret : List Ins := rel .ptable

/-- One round of `scheduler`. -/
def scheduler : List SIns :=
  [.sti] ++ (acquire .ptable).map .lock ++ [.scan slots] ++ (release .ptable).map .lock

/-- What a thread does with the condition. -/
inductive Role where
  /-- It waits for the condition, and may consume it. -/
  | waiter (consume : Bool)
  | waker

def Role.code (chan : Chan) : Role → List Ins
  | waiter consume => acq .lk ++ [.loop] ++ (if consume then [.setC false] else []) ++ rel .lk
  | waker => acq .lk ++ [.setC true] ++ wakeup chan ++ rel .lk

/-! ## The machine -/

structure Thread where
  state : RunState
  chan : Chan
  /-- What it still has to do in the kernel. -/
  code : List Ins
  /-- The local variable `intena` of `sched`. -/
  intena : Bool

structure Cpu where
  /-- The thread that it runs, or `none` while it is in `scheduler`. -/
  thread : Option Slot
  /-- What is left of the round of `scheduler`. -/
  code : List SIns

/-- The state of the machine. -/
structure Sys (ncpu : ℕ) where
  locks : Locks Lock ncpu
  cpu : Fin ncpu → Cpu
  thread : Slot → Thread
  cond : Bool

/-- The panics. -/
inductive Panic where
  | lock (p : LockPanic)
  /-- `"sched ptable.lock"` -/
  | schedLock
  /-- `"sched locks"` -/
  | schedLocks
  /-- `"sched running"` -/
  | schedRunning
  /-- `"sched interruptible"` -/
  | schedInterruptible
  deriving DecidableEq

namespace Sys

variable {ncpu : ℕ} (S : Sys ncpu)

/-- Change one thread. -/
def setThread (u : Slot) (t : Thread) : Sys ncpu :=
  { S with thread := Function.update S.thread u t }

/-- Change one processor. -/
def setCpu (c : Fin ncpu) (k : Cpu) : Sys ncpu := { S with cpu := Function.update S.cpu c k }

/-- Change what processor `c` knows of its interrupts. -/
def setCli (c : Fin ncpu) (k : Cli) : Sys ncpu := { S with locks := S.locks.setCli c k }

/-- What `wakeup1` does to a thread that it comes to. -/
def wake (ready : PId → Bool) (chan : Chan) (s : Slot) : Sys ncpu :=
  if ready s.1 ∧ (S.thread s).state = .sleeping ∧ (S.thread s).chan = chan then
    S.setThread s { S.thread s with state := .runnable }
  else S

/-- The tests of `sched`. -/
def schedTest (c : Fin ncpu) (u : Slot) : Option Panic :=
  if S.locks.holding c .ptable = false then some .schedLock
  else if (S.locks.cli c).ncli ≠ 1 then some .schedLocks
  else if (S.thread u).state = .running then some .schedRunning
  else if (S.locks.cli c).intr then some .schedInterruptible
  else none

/-- Thread `u` on processor `c` executes `i`, and has `is` left. -/
def exec (ready : PId → Bool) (chan : Chan) (c : Fin ncpu) (u : Slot) (i : Ins) (is : List Ins) :
    Option (Except Panic (Sys ncpu)) :=
  let t : Thread := { S.thread u with code := is }
  let T : Sys ncpu := S.setThread u t
  match i with
  | .lock e =>
    match S.locks.run c e with
    | none => none
    | some (.error p) => some (.error (.lock p))
    | some (.ok K) => some (.ok { T with locks := K })
  | .loop =>
    if S.cond then some (.ok T)
    else some (.ok (S.setThread u { t with code := sleep chan ++ .loop :: is }))
  | .setC b => some (.ok { T with cond := b })
  | .setChan chan => some (.ok (S.setThread u { t with chan := chan }))
  | .setState st => some (.ok (S.setThread u { t with state := st }))
  | .sched =>
    match S.schedTest c u with
    | some p => some (.error p)
    | none => some (.ok (S.setThread u { t with intena := (S.locks.cli c).intena }))
  | .swtch => some (.ok (T.setCpu c { S.cpu c with thread := none }))
  | .restore => some (.ok (T.setCli c { S.locks.cli c with intena := t.intena }))
  | .wakeup1 _ [] => some (.ok T)
  | .wakeup1 chan (s :: ss) =>
    some (.ok ((S.setThread u { t with code := .wakeup1 chan ss :: is }).wake ready chan s))
  | .iret => some (.ok (T.setCli c { S.locks.cli c with intr := true }))

/-- The scheduler of processor `c` executes `i`, and has `is` left. -/
def execSched (ready : PId → Bool) (c : Fin ncpu) (i : SIns) (is : List SIns) :
    Option (Except Panic (Sys ncpu)) :=
  let T : Sys ncpu := S.setCpu c ⟨none, is⟩
  match i with
  | .lock e =>
    match S.locks.run c e with
    | none => none
    | some (.error p) => some (.error (.lock p))
    | some (.ok K) => some (.ok { T with locks := K })
  | .sti => some (.ok (T.setCli c { S.locks.cli c with intr := true }))
  | .scan [] => some (.ok T)
  | .scan (s :: ss) =>
    if ready s.1 ∧ (S.thread s).state = .runnable then
      some (.ok ((S.setThread s { S.thread s with state := .running }).setCpu c
        ⟨some s, .scan ss :: is⟩))
    else some (.ok (S.setCpu c ⟨none, .scan ss :: is⟩))

end Sys

/-- The actions. -/
inductive Act (ncpu : ℕ) where
  | run (c : Fin ncpu)
  /-- The thread on `c` takes a role. -/
  | begin (c : Fin ncpu) (r : Role)
  | tick (c : Fin ncpu)

/-- One step of the machine. -/
def step {ncpu : ℕ} (ready : PId → Bool) (chan : Chan) : StepFn (Sys ncpu) (Act ncpu) Panic
  | S, .run c =>
    match (S.cpu c).thread with
    | some u =>
      match (S.thread u).code with
      | [] => none
      | i :: is => S.exec ready chan c u i is
    | none =>
      match (S.cpu c).code with
      | [] => some (.ok (S.setCpu c ⟨none, scheduler⟩))
      | i :: is => S.execSched ready c i is
  | S, .begin c r =>
    match (S.cpu c).thread with
    | none => none
    | some u =>
      match (S.thread u).code with
      | [] => some (.ok (S.setThread u { S.thread u with code := r.code chan }))
      | _ :: _ => none
  | S, .tick c =>
    match (S.cpu c).thread with
    | none => none
    | some u =>
      if (S.locks.cli c).intr ∧ (S.thread u).state = .running then
        some (.ok ((S.setThread u
            { S.thread u with code := yield ++ .iret :: (S.thread u).code }).setCli c
          { S.locks.cli c with intr := false }))
      else none

/-- The threads of `T`, all of them in ready processes, are about to run for the first time;
the processors are about to enter `scheduler`. -/
def Start {ncpu : ℕ} (ready : PId → Bool) (S : Sys ncpu) : Prop :=
  (∀ l, S.locks.lock l = ⟨false, none⟩) ∧ (∀ c, (S.locks.cli c).ncli = 0) ∧
  (∀ c, S.cpu c = ⟨none, []⟩) ∧
  ∀ u, (S.thread u).state = .unused ∨
    ready u.1 = true ∧ (S.thread u).state = .runnable ∧ (S.thread u).code = forkret

/-- The thread has made the condition true, and its `wakeup` is not finished: in its code the
loop of `wakeup1` is still to come, and the condition is not made true before that. -/
def inWakeup : List Ins → Bool
  | [] => false
  | .setC true :: _ => false
  | .wakeup1 _ _ :: _ => true
  | _ :: is => inWakeup is

end Xv6.Sleep
