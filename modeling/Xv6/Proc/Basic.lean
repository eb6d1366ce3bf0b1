import Xv6.Fs.Calls

/-!
# Processes, threads, processors and pages

The data of `proc.h`, as far as the modelled code reads it, and the kernel's view of
physical pages.  Pointers into the tables are the indices they stand for: a process is
its index in `ptable.proc`, a thread its process and its place in that process's row of
`ptable.tTable`, and a null pointer is `none`.  Addresses inside kernel stacks are
numbers, since what matters about them is which page they lie in.

`p->threads` only ever holds null or the process's own row, so it is a `Bool`.
-/

namespace Xv6.Proc

open Fs (Inum FileId)

/-- `enum state`, of processes and of threads. -/
inductive RunState where
  | unused
  | embryo
  | sleeping
  | runnable
  | running
  | zombie
  deriving DecidableEq

instance : NeZero nproc := ⟨by decide⟩
instance : NeZero nthread := ⟨by decide⟩
instance : NeZero nbuf := ⟨by decide⟩

/-- A process: an index into `ptable.proc`. -/
abbrev PId := Fin nproc

/-- A thread of a process: an index into its row of `ptable.tTable`. -/
abbrev TId := Fin nthread

/-- A thread: its process and its index there. -/
abbrev Slot := PId × TId

/-- The channels that the kernel sleeps on. -/
inductive Chan where
  | null
  /-- `wait` sleeps on the process. -/
  | proc (p : PId)
  /-- `kthread_join` sleeps on the thread. -/
  | thread (s : Slot)
  | inode (ip : Inum)
  | buf (b : Fin nbuf)
  | log
  | ticks
  /-- `&input.r` -/
  | input
  /-- `&p->nread` -/
  | pipeRead (p : ℕ)
  /-- `&p->nwrite` -/
  | pipeWrite (p : ℕ)
  deriving DecidableEq

/-- `struct kthread` -/
structure KThread where
  /-- The bottom of the kernel stack recorded for the thread; `0` if there is none. -/
  kstack : ℕ
  state : RunState
  tid : Int32
  parent : Option PId
  tf : ℕ
  context : ℕ
  chan : Chan

/-- `struct proc` -/
structure Entry where
  /-- The number of the page directory's page; `0` if there is none. -/
  pgdir : ℕ
  /-- The bottom of the process's kernel stack; `0` if there is none. -/
  kstack : ℕ
  state : RunState
  pid : Int32
  parent : Option PId
  killed : Bool
  ofile : Fin nofile → Option FileId
  cwd : Option Inum
  /-- `threads` is set, to the process's own row. -/
  threads : Bool

/-- `procIsReady` -/
def Entry.isReady (e : Entry) : Bool := e.state == .runnable || e.state == .running

/-- What a physical page is used for. -/
inductive Use where
  | free
  /-- Not under the allocator: kernel text and data, devices, no memory. -/
  | reserved
  /-- A kernel stack, allocated for a process. -/
  | stack (p : PId)
  /-- Part of the address space of page directory `d`. -/
  | vm (d : ℕ)
  | pipe
  deriving DecidableEq

/-- A page that `kalloc` has handed out. -/
def Use.allocated : Use → Bool
  | .free | .reserved => false
  | _ => true

/-- `struct cpu`, and the stack the processor is on. -/
structure Cpu where
  /-- The thread it runs, or `none` while it is in `scheduler`. -/
  thread : Option Slot
  /-- Where the inner loop of `scheduler` was left, while it is in `scheduler`. -/
  pos : Option Slot
  /-- `ts.esp0`: where a trap from user space puts the trap frame. -/
  esp0 : ℕ
  /-- The top of the kernel stack that the running thread is on. -/
  ktop : ℕ
  /-- The page directory loaded; `0` for `kpgdir`. -/
  cr3 : ℕ

/-- `sizeof(struct trapframe)` -/
def trapframeSize : ℕ := 76

/-- `sizeof(struct context)` -/
def contextSize : ℕ := 20

end Xv6.Proc
