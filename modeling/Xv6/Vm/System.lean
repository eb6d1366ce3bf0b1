import Xv6.Proc.Basic
import Xv6.Vm.Exec

/-!
# Processes and their memory

`fork`, over the memory of `Xv6.Vm.Basic`, for processes with one thread.  The call is one step
here; what can happen when threads are in the middle of such calls is part of the model of threads.

The state is the process table, the table of open files and the memory.  Of an inode only the
number of references is modelled, and of a thread only its state.  What is on a kernel stack is left
out, but for the two registers of the trap frame that `exec` sets (`Image`).
-/

namespace Xv6.Vm

open Function

open Proc (PId TId Slot RunState)
open Fs (FileId Ptr FileObj)

/-- `struct proc`, with the two registers of its thread's trap frame. -/
structure Process extends Image where
  /-- The page of the kernel stack; `0` if there is none. -/
  kstack : ℕ
  state : RunState
  pid : Int32
  parent : Option PId
  killed : Bool
  ofile : Fin nofile → Option FileId
  cwd : Option Ptr
  /-- `threads` is set, to the process's own row. -/
  threads : Bool

/-- `struct file`, but for the offset. -/
structure File where
  ref : ℕ
  obj : FileObj

/-- `readopen` and `writeopen` of a pipe. -/
structure PipeEnds where
  readopen : Bool
  writeopen : Bool

structure System where
  proc : PId → Process
  /-- The states of the threads in `ptable.tTable`. -/
  thread : Slot → RunState
  initproc : PId
  nextpid : Int32
  file : FileId → File
  inodeRef : Ptr → ℕ
  pipe : ℕ → Option PipeEnds
  mem : Mem

namespace System

def setProc (S : System) (p : PId) (f : Process → Process) : System :=
  { S with proc := update S.proc p (f (S.proc p)) }

def setFile (S : System) (i : FileId) (f : File) : System :=
  { S with file := update S.file i f }

/-! ## `fork` -/

def allocproc (S : System) : Option PId × System :=
  match (List.finRange nproc).find? fun q => (S.proc q).state = .unused with
  | none => (none, S)
  | some q =>
    let S : System :=
      { S.setProc q fun e => { e with state := .embryo, threads := true, pid := S.nextpid } with
        nextpid := S.nextpid + 1 }
    match S.mem.kalloc with
    | (none, M) =>
      (none, { S.setProc q fun e => { e with kstack := 0, state := .unused } with mem := M })
    | (some f, M) =>
      (some q,
        { S.setProc q fun e => { e with kstack := f } with
          mem := M
          thread := fun s => if s.1 = q then .unused else S.thread s })

def filedup (S : System) (f : FileId) : Except Stop System :=
  if (S.file f).ref < 1 then .error .filedup
  else .ok (S.setFile f { S.file f with ref := (S.file f).ref + 1 })

def idup (S : System) (ip : Ptr) : System :=
  { S with inodeRef := update S.inodeRef ip (S.inodeRef ip + 1) }

/-- The loop of `fork` over the descriptors. -/
def forkFiles (p np : PId) : List (Fin nofile) → System → Except Stop System
  | [], S => .ok S
  | fd :: fds, S =>
    match (S.proc p).ofile fd with
    | none => forkFiles p np fds S
    | some f => do
      let S ← S.filedup f
      forkFiles p np fds
        (S.setProc np fun e => { e with ofile := update e.ofile fd (some f) })

/-- `fork` in process `p`. -/
def fork (L : Layout) (S : System) (p : PId) : Except Stop (Int32 × System) :=
  match S.allocproc with
  | (none, S) => .ok (-1, S)
  | (some np, S) => do
    match ← Mem.copyuvm L S.mem (S.proc p).pgdir (S.proc p).sz with
    | (none, M) => do
      let M ← M.kfree L (S.proc np).kstack
      pure (-1, { S.setProc np fun e => { e with pgdir := 0, kstack := 0, state := .unused } with
        mem := M })
    | (some d, M) => do
      let P := S.proc p
      let S : System :=
        { S.setProc np fun e =>
            { e with pgdir := d, sz := P.sz, parent := some p, eip := P.eip, esp := P.esp } with
          mem := M }
      let S ← forkFiles p np (List.finRange nofile) S
      match P.cwd with
      | none => .error .null
      | some ip =>
        let S := S.idup ip
        let S := S.setProc np fun e =>
          { e with cwd := some ip, name := P.name, state := .runnable }
        pure ((S.proc np).pid,
          { S with thread := update S.thread (np, 0) .runnable })

end System
end Xv6.Vm
