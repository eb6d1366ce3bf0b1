import Xv6.Lib.Ring
import Xv6.Lib.Transition

/-!
# Pipes

`pipe.c` as a machine.  Any number of threads call `pipewrite` and `piperead` on one pipe;
a call runs with `p->lock` held until it returns or goes to sleep, so one such stretch is
one step.  `pipeclose` and `kill` are steps of their own.

* `PipeSys.pipewrite`, `PipeSys.piperead` --- one stretch of a call: from its beginning, or
  from where it slept, to where it sleeps again (`none`) or returns.

A thread in `pipewrite` can only sleep on `&p->nwrite` and one in `piperead` only on
`&p->nread`, so the channel need not be recorded.  `stored` and `delivered` are not in the
source: they list the bytes that have gone through `p->data`, in the order in which the
calls put them there and took them out.
-/

namespace Xv6.Pipes

open Transition

def pipesize : ℕ := 512

instance : NeZero pipesize := ⟨by decide⟩

/-- `struct pipe`, less its lock. -/
structure Pipe extends Ring pipesize UInt8 where
  readopen : Bool
  writeopen : Bool

/-- The end is open. -/
def Pipe.isOpen (p : Pipe) : Bool → Bool
  | true => p.writeopen
  | false => p.readopen

/-- A call that has not returned. -/
inductive PipeCall where
  /-- `pipewrite(p, addr, n)`, which has stored `i` bytes. -/
  | write (n : ℤ) (i : ℕ)
  /-- `piperead(p, addr, n)`, which has taken nothing yet. -/
  | read (n : ℤ)

/-- Where a thread is. -/
inductive Status where
  | outside
  | asleep (c : PipeCall)
  | awake (c : PipeCall)

/-- A pipe and its users. -/
structure PipeSys (ι : Type) where
  pipe : Pipe
  thread : ι → Status
  killed : ι → Bool
  stored : List UInt8
  delivered : List UInt8

namespace PipeSys

variable {ι : Type} [DecidableEq ι]

/-- Put a thread somewhere. -/
def put (S : PipeSys ι) (t : ι) (s : Status) : PipeSys ι :=
  { S with thread := Function.update S.thread t s }

/-- `wakeup(&p->nread)` -/
def wakeReaders (S : PipeSys ι) : PipeSys ι :=
  { S with thread := fun t =>
      match S.thread t with
      | .asleep (.read n) => .awake (.read n)
      | s => s }

/-- `wakeup(&p->nwrite)` -/
def wakeWriters (S : PipeSys ι) : PipeSys ι :=
  { S with thread := fun t =>
      match S.thread t with
      | .asleep (.write n i) => .awake (.write n i)
      | s => s }

/-- `p->data[p->nwrite++ % PIPESIZE] = b` -/
def store (S : PipeSys ι) (b : UInt8) : PipeSys ι :=
  { S with
    pipe := { S.pipe with toRing := S.pipe.push b }
    stored := S.stored ++ [b] }

/-- `addr[i] = p->data[p->nread++ % PIPESIZE]` -/
def take (S : PipeSys ι) : PipeSys ι :=
  { S with
    pipe := { S.pipe with toRing := S.pipe.pop }
    delivered := S.delivered ++ [S.pipe.front] }

/-- The loop of `pipewrite` at `i`, with `k` rounds to go, as far as it gets without
sleeping. -/
def fill (addr : ℕ → UInt8) : ℕ → ℕ → PipeSys ι → ℕ × PipeSys ι
  | 0, i, S => (i, S)
  | k + 1, i, S => if S.pipe.isFull then (i, S) else fill addr k (i + 1) (S.store (addr i))

/-- The copying loop of `piperead`, with `k` rounds to go, and how many bytes it copies. -/
def drain : ℕ → PipeSys ι → ℕ × PipeSys ι
  | 0, S => (0, S)
  | k + 1, S =>
    if S.pipe.isEmpty then (0, S)
    else
      let r := drain k S.take
      (r.1 + 1, r.2)

/-- A stretch of `pipewrite` by thread `t`, from the loop at `i` on; `addr` is what the
buffer holds by now. -/
def pipewrite (S : PipeSys ι) (t : ι) (addr : ℕ → UInt8) (n : ℤ) (i : ℕ) :
    Option ℤ × PipeSys ι :=
  let r := S.fill addr (n.toNat - i) i
  if n ≤ r.1 then (some n, r.2.wakeReaders.put t .outside)
  else if r.2.pipe.readopen = false ∨ r.2.killed t = true then (some (-1), r.2.put t .outside)
  else (none, r.2.wakeReaders.put t (.asleep (.write n r.1)))

/-- A stretch of `piperead` by thread `t`. -/
def piperead (S : PipeSys ι) (t : ι) (n : ℤ) : Option ℤ × PipeSys ι :=
  if S.pipe.isEmpty ∧ S.pipe.writeopen then
    if S.killed t then (some (-1), S.put t .outside)
    else (none, S.put t (.asleep (.read n)))
  else
    let r := S.drain n.toNat
    (some r.1, r.2.wakeWriters.put t .outside)

def pipeclose (S : PipeSys ι) (writable : Bool) : PipeSys ι :=
  if writable then { S with pipe := { S.pipe with writeopen := false } }.wakeReaders
  else { S with pipe := { S.pipe with readopen := false } }.wakeWriters

/-- What `kill` does to a thread of the process. -/
def kill (S : PipeSys ι) (t : ι) : PipeSys ι :=
  { S.put t (match S.thread t with
      | .asleep c => .awake c
      | s => s) with
    killed := Function.update S.killed t true }

end PipeSys

/-- The actions. -/
inductive PipeAct (ι : Type) where
  | write (t : ι) (addr : ℕ → UInt8) (n : ℤ)
  | read (t : ι) (n : ℤ)
  /-- A thread that has been woken up goes on; a writer finds `addr` in its buffer. -/
  | resume (t : ι) (addr : ℕ → UInt8)
  | close (writable : Bool)
  | kill (t : ι)

variable {ι : Type} [DecidableEq ι]

/-- One step.  Who writes has the write end open, who reads the read end; when both are
closed, the pipe is gone, and what a thread still inside would find is not modelled. -/
def step : StepFn (PipeSys ι) (PipeAct ι) Empty
  | S, .write t addr n =>
    match S.thread t with
    | .outside => if S.pipe.writeopen then some (.ok (S.pipewrite t addr n 0).2) else none
    | _ => none
  | S, .read t n =>
    match S.thread t with
    | .outside => if S.pipe.readopen then some (.ok (S.piperead t n).2) else none
    | _ => none
  | S, .resume t addr =>
    if S.pipe.isOpen true || S.pipe.isOpen false then
      match S.thread t with
      | .awake (.write n i) => some (.ok (S.pipewrite t addr n i).2)
      | .awake (.read n) => some (.ok (S.piperead t n).2)
      | _ => none
    else none
  | S, .close writable =>
    if S.pipe.isOpen writable then some (.ok (S.pipeclose writable)) else none
  | S, .kill t => some (.ok (S.kill t))

/-- `pipealloc` has made the pipe, and nobody has used it. -/
structure Opened (S : PipeSys ι) : Prop where
  readopen : S.pipe.readopen = true
  writeopen : S.pipe.writeopen = true
  nread : S.pipe.nread = 0
  nwrite : S.pipe.nwrite = 0
  thread : ∀ t, S.thread t = .outside
  stored : S.stored = []
  delivered : S.delivered = []

/-- What a step does: a stretch of a call, or a step of somebody else. -/
inductive Moves (S : PipeSys ι) : PipeAct ι → PipeSys ι → Prop
  | write {a : PipeAct ι} {t : ι} {addr : ℕ → UInt8} {n : ℤ} {i : ℕ}
      (h : a = .write t addr n ∧ i = 0 ∧ S.thread t = .outside ∨
        a = .resume t addr ∧ S.thread t = .awake (.write n i)) :
      Moves S a (S.pipewrite t addr n i).2
  | read {a : PipeAct ι} {t : ι} {n : ℤ}
      (h : a = .read t n ∧ S.thread t = .outside ∨
        (∃ addr, a = .resume t addr) ∧ S.thread t = .awake (.read n)) :
      Moves S a (S.piperead t n).2
  | close {writable : Bool} : Moves S (.close writable) (S.pipeclose writable)
  | kill {t : ι} : Moves S (.kill t) (S.kill t)

theorem Moves.of_step {S S' : PipeSys ι} {a : PipeAct ι} (h : step S a = some (.ok S')) :
    Moves S a S' := by
  unfold step at h
  cases a with
  | write t addr n =>
    dsimp only at h
    split at h
    · rename_i ht
      split at h
      · cases h
        exact .write (.inl ⟨rfl, rfl, ht⟩)
      · cases h
    · cases h
  | read t n =>
    dsimp only at h
    split at h
    · rename_i ht
      split at h
      · cases h
        exact .read (.inl ⟨rfl, ht⟩)
      · cases h
    · cases h
  | resume t addr =>
    dsimp only at h
    split at h
    · split at h
      · rename_i ht
        cases h
        exact .write (.inr ⟨rfl, ht⟩)
      · rename_i ht
        cases h
        exact .read (.inr ⟨⟨addr, rfl⟩, ht⟩)
      · cases h
    · cases h
  | close writable =>
    dsimp only at h
    split at h
    · cases h
      exact .close
    · cases h
  | kill t =>
    cases h
    exact .kill

end Xv6.Pipes
