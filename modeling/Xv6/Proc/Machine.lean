import Xv6.Proc.Code
import Xv6.Lib.Transition
import Mathlib.Logic.Function.Basic

/-!
# The kernel as a machine

The state is the process and thread tables, the processors, the pages, and who holds
which buffer, which inode and which log operation.  A step is one of

* the scheduler of a processor switches to a thread;
* the running thread of a processor performs its next operation, or traps;
* a clock interrupt makes the running thread yield;
* a device wakes up a channel.

The functions that work on the tables have the names they have in `proc.c` and
`kthread.c`.  Whatever the source leaves to the machine or to data that is not modelled
is in the action: which page `kalloc` returns and whether there is one, which buffer
`bget` finds, how deep the stack is when a thread is switched out.

`holder`s and `units` are not in the source, which only has flags and a count; they say
who set the flag and who is counted.  `exiting` records that a thread of the process has
entered `exit`.
-/

namespace Xv6.Proc

open Function Transition
open Fs (Inum FileId)

/-- The state of the kernel on a machine with `ncpu` processors. -/
structure Kernel (ncpu : ℕ) where
  proc : PId → Entry
  thread : Slot → KThread
  initproc : PId
  nextpid : Int32
  nexttid : Int32
  page : ℕ → Use
  cpu : Fin ncpu → Cpu
  /-- What a thread does when it next runs in the kernel. -/
  code : Slot → KProg Unit
  bufHolder : Fin nbuf → Option Slot
  inodeHolder : Inum → Option Slot
  outstanding : ℤ
  committing : Bool
  units : Slot → ℕ
  exiting : PId → Bool
  /-- `forkret` has not been called yet. -/
  first : Bool

/-- What an action decides. -/
structure Choice where
  n : ℕ
  pages : List ℕ
  depth : ℕ

/-- How an operation ends for the thread that performs it. -/
inductive Outcome (ncpu : ℕ) (R : Type) where
  | done (r : R) (S : Kernel ncpu)
  /-- The thread sleeps on a channel, and performs the operation again when it is back. -/
  | sleep (chan : Chan)
  /-- The thread has left its processor for good. -/
  | gone (S : Kernel ncpu)
  | panic

namespace Kernel

variable {ncpu : ℕ}

/-! ## Writing to the tables -/

/-- Change one process-table entry. -/
def setProc (S : Kernel ncpu) (p : PId) (f : Entry → Entry) : Kernel ncpu :=
  { S with proc := update S.proc p (f (S.proc p)) }

/-- Change one thread. -/
def setThread (S : Kernel ncpu) (s : Slot) (f : KThread → KThread) : Kernel ncpu :=
  { S with thread := update S.thread s (f (S.thread s)) }

/-- Change one processor. -/
def setCpu (S : Kernel ncpu) (c : Fin ncpu) (f : Cpu → Cpu) : Kernel ncpu :=
  { S with cpu := update S.cpu c (f (S.cpu c)) }

/-- The first index with a property, as the loops of the source find it. -/
def first? {n : ℕ} (f : Fin n → Bool) : Option (Fin n) := (List.finRange n).find? f

/-! ## Pages -/

/-- `kfree`: `none` is its panic. -/
def kfree (S : Kernel ncpu) (a : ℕ) : Option (Kernel ncpu) :=
  if a % kstacksize = 0 ∧ S.page (a / kstacksize) ≠ .reserved then
    some { S with page := update S.page (a / kstacksize) .free }
  else none

/-- `freevm`: `none` is its panic. -/
def freevm (S : Kernel ncpu) (d : ℕ) : Option (Kernel ncpu) :=
  if d = 0 then none
  else some { S with page := fun q => if S.page q = .vm d then .free else S.page q }

/-- Some free pages are handed out. -/
def kalloc (S : Kernel ncpu) (qs : List ℕ) (u : Use) : Option (Kernel ncpu) :=
  if qs.Nodup ∧ ∀ q ∈ qs, S.page q = .free then
    some { S with page := fun q => if q ∈ qs then u else S.page q }
  else none

/-! ## Sleeping and waking up -/

/-- A thread that sleeps on `chan` becomes runnable. -/
def wake (chan : Chan) (t : KThread) : KThread :=
  if t.state = .sleeping ∧ t.chan = chan then { t with state := .runnable } else t

/-- `wakeup1`, and `wakeup`, which is the same with the lock. -/
def wakeup1 (S : Kernel ncpu) (chan : Chan) : Kernel ncpu :=
  { S with thread := fun s =>
      if (S.proc s.1).isReady && (S.proc s.1).threads then wake chan (S.thread s)
      else S.thread s }

/-- `wakeupThreads`, called in process `p`. -/
def wakeupThreads (S : Kernel ncpu) (p : PId) (chan : Chan) : Kernel ncpu :=
  { S with thread := fun s => if s.1 = p then wake chan (S.thread s) else S.thread s }

/-- The thread gives up its processor: `sched`, and the way back into `scheduler`. -/
def leave (S : Kernel ncpu) (c : Fin ncpu) (s : Slot) (depth : ℕ) : Kernel ncpu :=
  (S.setThread s fun t =>
    { t with context := (S.cpu c).ktop - trapframeSize - contextSize
        - depth % (kstacksize - trapframeSize - contextSize) }).setCpu c fun k =>
    { k with thread := none, pos := some s, cr3 := 0 }

/-- `sleep` -/
def sleepOn (S : Kernel ncpu) (c : Fin ncpu) (s : Slot) (chan : Chan) (depth : ℕ) :
    Kernel ncpu :=
  (S.setThread s fun t => { t with chan := chan, state := .sleeping }).leave c s depth

def yield (S : Kernel ncpu) (c : Fin ncpu) (s : Slot) (depth : ℕ) : Kernel ncpu :=
  (S.setThread s fun t => { t with state := .runnable }).leave c s depth

/-! ## `proc.c` -/

/-- The critical section of `allocproc`. -/
def procAlloc (S : Kernel ncpu) : Option PId × Kernel ncpu :=
  match first? fun q => (S.proc q).state == .unused with
  | none => (none, S)
  | some q =>
    (some q,
      { S.setProc q fun e => { e with state := .embryo, threads := true, pid := S.nextpid } with
        nextpid := S.nextpid + 1
        exiting := update S.exiting q false })

/-- `allocproc` after its `kalloc`. -/
def procInit (S : Kernel ncpu) (q : PId) : Kernel ncpu :=
  let sp := (S.proc q).kstack + kstacksize - trapframeSize
  { S with
    thread := fun s =>
      if s.1 = q then
        let t : KThread := { S.thread s with state := .unused }
        if s.2 = 0 then
          { t with tf := sp, context := sp - 4 - contextSize, kstack := (S.proc q).kstack }
        else t
      else S.thread s
    code := update S.code (q, 0) forkret }

/-- `fork` in thread `s`, from `np->sz = proc->sz` to the trap frame. -/
def forkThread (S : Kernel ncpu) (s : Slot) (np : PId) : Kernel ncpu :=
  { S.setProc np fun e => { e with parent := some s.1 } with
    thread := fun u =>
      if u.1 = np then
        if u.2 = 0 then
          { S.thread u with parent := some np, kstack := (S.thread s).kstack }
        else { S.thread u with state := .unused }
      else S.thread u }

/-- No thread of the row is anything but `UNUSED` or `ZOMBIE`. -/
def rowIdle (S : Kernel ncpu) (p : PId) : Bool :=
  (List.finRange nthread).all fun t =>
    (S.thread (p, t)).state == .unused || (S.thread (p, t)).state == .zombie

/-- The loop of `exit` over the children of `p`.  A child without a row is judged by
what is in user memory, which `mem` stands for. -/
def reparent (S : Kernel ncpu) (p : PId) (mem : ℕ) : Kernel ncpu :=
  { S with proc := fun q =>
      if (S.proc q).parent = some p then
        let e : Entry := { S.proc q with parent := some S.initproc }
        if (if e.threads then S.rowIdle q else mem.testBit q) then { e with state := .zombie }
        else e
      else S.proc q }

/-- The critical section of `exit` in process `p`, up to `sched()`. -/
def exitTables (S : Kernel ncpu) (p : PId) (mem : ℕ) : Kernel ncpu :=
  let S := S.wakeup1 ((S.proc p).parent.elim .null .proc)
  let S := S.reparent p mem
  { S.setProc p fun e => { e with state := .zombie, threads := false } with
    thread := fun s =>
      if s.1 = p then { S.thread s with state := .zombie, tid := 0, parent := none, chan := .null }
      else S.thread s }

/-- `wait` frees the zombie `q`: `none` is a panic of `kfree` or `freevm`. -/
def reap (S : Kernel ncpu) (q : PId) : Option (Kernel ncpu) :=
  match S.kfree (S.proc q).kstack with
  | none => none
  | some S' =>
    match S'.freevm (S.proc q).pgdir with
    | none => none
    | some S'' =>
      some (S''.setProc q fun e =>
        { e with kstack := 0, state := .unused, pid := 0, parent := none, killed := false })

/-- The child that the loop of `wait` finds. -/
def zombieChild (S : Kernel ncpu) (p : PId) : Option PId :=
  first? fun q => (S.proc q).parent == some p && (S.proc q).state == .zombie

def kill (S : Kernel ncpu) (pid : Int32) : Int32 × Kernel ncpu :=
  match first? fun q => (S.proc q).pid == pid with
  | none => (-1, S)
  | some q =>
    (0,
      { S.setProc q fun e => { e with killed := true } with
        thread := fun s =>
          if s.1 = q ∧ (S.proc q).threads ∧ (S.thread s).state = .sleeping then
            { S.thread s with state := .runnable }
          else S.thread s })

/-! ## `kthread.c` -/

/-- The critical section of `kthread_create` in process `p`. -/
def threadAlloc (S : Kernel ncpu) (p : PId) : Option TId × Kernel ncpu :=
  match first? fun t => (S.thread (p, t)).state == .unused with
  | none => (none, S)
  | some t =>
    (some t,
      { S.setThread (p, t) fun k => { k with state := .embryo, tid := S.nexttid } with
        nexttid := S.nexttid + 1 })

/-- `kthread_create` from `sp = t->kstack + stack_size` to `t->parent = proc`. -/
def threadInit (S : Kernel ncpu) (p : PId) (t : TId) (size : ℕ) : Kernel ncpu :=
  let sp := ((S.thread (p, t)).kstack + size + 2 ^ 32 - trapframeSize) % 2 ^ 32
  { S.setThread (p, t) fun k =>
      { k with tf := sp, context := (sp + 2 ^ 32 - 4 - contextSize) % 2 ^ 32, parent := some p } with
    code := update S.code (p, t) forkret }

/-- `kthread_exit` by thread `s` when another thread of its process goes on. -/
def threadGone (S : Kernel ncpu) (s : Slot) : Kernel ncpu :=
  (S.setThread s fun k =>
    { k with state := .zombie, parent := none, tf := 0, tid := 0 }).wakeupThreads
      s.1 (.thread s)

/-- The thread that the loop of `kthread_join` finds exited. -/
def zombieThread (S : Kernel ncpu) (p : PId) (tid : Int32) : Option TId :=
  first? fun t => (S.thread (p, t)).tid == tid && (S.thread (p, t)).state == .zombie

/-- The last thread of the row that has the identifier. -/
def lastThread (S : Kernel ncpu) (p : PId) (tid : Int32) : Option TId :=
  (List.finRange nthread).reverse.find? fun t => (S.thread (p, t)).tid == tid

/-! ## Operations -/

/-- Answer `true` if the allocation is possible with the pages the action offers, and
`false` if the action offers none. -/
def allocOr (S : Kernel ncpu) (qs : List ℕ) (u : Use) (f : Kernel ncpu → Kernel ncpu)
    (fail : Kernel ncpu) : Option (Outcome ncpu Bool) :=
  match qs with
  | [] => some (.done false fail)
  | _ => (S.kalloc qs u).map fun S' => .done true (f S')

/-- A critical section that looks at `proc->threads`.  With a null pointer there it would
go on in user memory; the model ends. -/
def withRow {R : Type} (S : Kernel ncpu) (p : PId) (o : Option (Outcome ncpu R)) :
    Option (Outcome ncpu R) :=
  if (S.proc p).threads then o else some .panic

/-- What an operation does, when it is performed by thread `s` on processor `c`. -/
def perform (S : Kernel ncpu) (c : Fin ncpu) (s : Slot) (ch : Choice) :
    (e : KOp) → Option (Outcome ncpu e.Ans)
  | .killed => some (.done (S.proc s.1).killed S)
  | .setKilled => some (.done () (S.setProc s.1 fun e => { e with killed := true }))
  | .procAlloc => some (.done S.procAlloc.1 S.procAlloc.2)
  | .stackAlloc p =>
    S.allocOr (ch.pages.take 1) (.stack p)
      (fun S' => S'.setProc p fun e => { e with kstack := (ch.pages.headD 0) * kstacksize })
      (S.setProc p fun e => { e with kstack := 0, state := .unused })
  | .procInit p => some (.done () (S.procInit p))
  | .copyuvm np =>
    S.allocOr ch.pages (.vm (ch.pages.headD 0))
      (fun S' => S'.setProc np fun e => { e with pgdir := ch.pages.headD 0 })
      (S.setProc np fun e => { e with pgdir := 0 })
  | .forkFail np =>
    match S.kfree (S.proc np).kstack with
    | none => some .panic
    | some S' => some (.done () (S'.setProc np fun e => { e with kstack := 0, state := .unused }))
  | .forkThread np => some (.done () (S.forkThread s np))
  | .forkFile np fd => some (.done () (S.setProc np fun e =>
    match (S.proc s.1).ofile fd with
    | none => e
    | some f => { e with ofile := update e.ofile fd (some f) }))
  | .forkCwd np =>
    match (S.proc s.1).cwd with
    | none => some .panic
    | some ip => some (.done () (S.setProc np fun e => { e with cwd := some ip }))
  | .forkDone np => some (.done (S.proc np).pid
      ((S.setProc np fun e => { e with state := .runnable }).setThread (np, 0) fun t =>
        { t with state := .runnable }))
  | .threadAlloc =>
    S.withRow s.1 (some (.done (S.threadAlloc s.1).1 (S.threadAlloc s.1).2))
  | .threadInit t size => some (.done () (S.threadInit s.1 t size))
  | .threadReady t => some (.done (S.thread (s.1, t)).tid
      (S.setThread (s.1, t) fun k => { k with state := .runnable }))
  | .threadExit =>
    let S' := S.setThread s fun k => { k with state := .zombie }
    S.withRow s.1
      (if S'.rowIdle s.1 then
        some (.done () (S'.setProc s.1 fun e => { e with state := .zombie }))
      else some (.gone ((S'.threadGone s).leave c s ch.depth)))
  | .threadJoin tid =>
    S.withRow s.1
      (match S.zombieThread s.1 tid, S.lastThread s.1 tid with
      | some t, _ => some (.done tid
          (S.setThread (s.1, t) fun k => { k with tid := -1, parent := none }))
      | none, none => some (.done (-1) S)
      | none, some t =>
        if (S.proc s.1).killed then some (.done (-1) S) else some (.sleep (.thread (s.1, t))))
  | .exitEnter =>
    if s.1 = S.initproc then some .panic
    else some (.done () { S with exiting := update S.exiting s.1 true })
  | .exitDone => S.withRow s.1 (some (.gone ((S.exitTables s.1 ch.n).leave c s ch.depth)))
  | .wait =>
    match S.zombieChild s.1 with
    | some q =>
      match S.reap q with
      | none => some .panic
      | some S' => some (.done (S.proc q).pid S')
    | none =>
      if (first? fun q => (S.proc q).parent == some s.1).isNone ∨ (S.proc s.1).killed then
        some (.done (-1) S)
      else some (.sleep (.proc s.1))
  | .kill pid => some (.done (S.kill pid).1 (S.kill pid).2)
  | .wakeup chan => some (.done () (S.wakeup1 chan))
  | .await chan intr =>
    match ch.n with
    | 0 => some (.done true S)
    | 1 => if intr && (S.proc s.1).killed then some (.done false S) else none
    | _ => some (.sleep chan)
  | .setupkvm =>
    match ch.pages with
    | [] => some (.done none S)
    | d :: qs => (S.kalloc (d :: qs) (.vm d)).map fun S' => .done (some d) S'
  | .allocuvm d =>
    match ch.n with
    | 0 => (S.kalloc ch.pages (.vm d)).map fun S' => .done true S'
    | _ => some (.done false S)
  | .deallocuvm d =>
    -- the page directory itself stays
    if ∀ q ∈ ch.pages, S.page q = .vm d ∧ q ≠ d then
      some (.done () { S with page := fun q => if q ∈ ch.pages then .free else S.page q })
    else none
  | .pgdir => some (.done (S.proc s.1).pgdir S)
  | .setPgdir d => some (.done () (S.setProc s.1 fun e => { e with pgdir := d }))
  | .switchuvm =>
    if (S.proc s.1).pgdir = 0 then some .panic
    else some (.done () (S.setCpu c fun k =>
      { k with esp0 := (S.proc s.1).kstack + kstacksize, cr3 := (S.proc s.1).pgdir }))
  | .freevm d =>
    match S.freevm d with
    | none => some .panic
    | some S' => some (.done () S')
  | .pipeAlloc => S.allocOr (ch.pages.take 1) .pipe id S
  | .pipeFree =>
    if S.page ch.n = .pipe then
      some (.done () { S with page := update S.page ch.n .free })
    else none
  | .setTf => some (.done () (S.setThread s fun t =>
    { t with tf := (S.cpu c).ktop - trapframeSize }))
  | .forkret => some (.done S.first { S with first := false })
  | .bget =>
    let b : Fin nbuf := Fin.ofNat nbuf ch.n
    match S.bufHolder b with
    | some _ => some (.sleep (.buf b))
    | none => some (.done b { S with bufHolder := update S.bufHolder b (some s) })
  | .iderw b =>
    match ch.n with
    | 0 => some (.done () S)
    | _ => some (.sleep (.buf b))
  | .logWrite _ => if S.outstanding < 1 then some .panic else some (.done () S)
  | .brelse b =>
    match S.bufHolder b with
    | none => some .panic
    | some _ => some (.done ()
        ({ S with bufHolder := update S.bufHolder b none }.wakeup1 (.buf b)))
  | .ilock ip =>
    match S.inodeHolder ip with
    | some _ => some (.sleep (.inode ip))
    | none => some (.done () { S with inodeHolder := update S.inodeHolder ip (some s) })
  | .iunlock ip =>
    match S.inodeHolder ip with
    | none => some .panic
    | some _ => some (.done ()
        ({ S with inodeHolder := update S.inodeHolder ip none }.wakeup1 (.inode ip)))
  | .iputTest ip =>
    match ch.n, S.inodeHolder ip with
    | 0, _ => some (.done false S)
    | _, some _ => some .panic
    | _, none => some (.done true
        { S with inodeHolder := update S.inodeHolder ip (some s) })
  | .iputEnd ip freed =>
    if freed then some (.done ()
      ({ S with inodeHolder := update S.inodeHolder ip none }.wakeup1 (.inode ip)))
    else some (.done () S)
  | .beginOp =>
    if S.committing || ch.n != 0 then some (.sleep .log)
    else some (.done ()
      { S with
        outstanding := S.outstanding + 1
        units := update S.units s (S.units s + 1) })
  | .endOp =>
    let S' : Kernel ncpu :=
      { S with
        outstanding := S.outstanding - 1
        units := update S.units s (S.units s - 1) }
    if S.committing then some .panic
    else if S'.outstanding = 0 then some (.done true { S' with committing := true })
    else some (.done false (S'.wakeup1 .log))
  | .commitEnd => some (.done () ({ S with committing := false }.wakeup1 .log))
  | .ofile fd => some (.done ((S.proc s.1).ofile fd) S)
  | .setOfile fd f => some (.done () (S.setProc s.1 fun e =>
    { e with ofile := update e.ofile fd f }))
  | .cwd => some (.done (S.proc s.1).cwd S)
  | .setCwd ip => some (.done () (S.setProc s.1 fun e => { e with cwd := ip }))
  | .choose => some (.done ch.n S)
  | .panic => some .panic

/-! ## Steps -/

/-- The scheduler may switch to `s`: the thread is runnable, and the process is ready or
the inner loop has not left it. -/
def canRun (S : Kernel ncpu) (c : Fin ncpu) (s : Slot) : Bool :=
  (S.thread s).state == .runnable && (S.proc s.1).threads &&
    ((S.proc s.1).isReady || (S.cpu c).pos.any fun u => u.1 == s.1 && decide (u.2 < s.2))

/-- `scheduler` switches to `s`, which tidies up after `sleep` if it slept. -/
def dispatch (S : Kernel ncpu) (c : Fin ncpu) (s : Slot) : Kernel ncpu :=
  (S.setCpu c fun _ =>
    { thread := some s
      pos := none
      esp0 := (S.proc s.1).kstack + kstacksize
      ktop := (S.thread s).context / kstacksize * kstacksize + kstacksize
      cr3 := (S.proc s.1).pgdir }).setThread s fun t =>
    { t with state := .running, chan := .null }

end Kernel

/-- The actions. -/
inductive Act (ncpu : ℕ) where
  | schedule (c : Fin ncpu) (s : Slot)
  /-- The thread on `c` performs its next operation. -/
  | run (c : Fin ncpu) (ch : Choice)
  /-- The thread on `c`, in user space, enters the kernel. -/
  | enter (c : Fin ncpu) (t : Trap)
  /-- A clock interrupt on `c`, in the kernel. -/
  | tick (c : Fin ncpu) (depth : ℕ)
  /-- A device interrupt wakes up a channel. -/
  | intr (chan : Chan)

open Kernel

/-- One step of the kernel. -/
def step {ncpu : ℕ} : StepFn (Kernel ncpu) (Act ncpu) Unit
  | S, .schedule c s =>
    match (S.cpu c).thread with
    | some _ => none
    | none =>
      if S.canRun c s then
        -- `switchuvm: no pgdir`
        if (S.proc s.1).pgdir = 0 then some (.error ()) else some (.ok (S.dispatch c s))
      else none
  | S, .run c ch =>
    match (S.cpu c).thread with
    | none => none
    | some s =>
      match S.code s with
      | .ret _ => none
      | .vis e k =>
        match S.perform c s ch e with
        | none => none
        | some (.done r S') =>
          some (.ok { S' with code := update S'.code s (k r) })
        | some (.sleep chan) => some (.ok (S.sleepOn c s chan ch.depth))
        | some (.gone S') => some (.ok S')
        | some .panic => some (.error ())
  | S, .enter c t =>
    match (S.cpu c).thread with
    | none => none
    | some s =>
      match S.code s with
      | .vis _ _ => none
      | .ret _ => some (.ok
          { S.setCpu c fun k => { k with ktop := k.esp0 } with
            code := update S.code s (trap t) })
  | S, .tick c depth =>
    match (S.cpu c).thread with
    | none => none
    | some s =>
      match S.code s with
      | .ret _ => none
      | .vis _ _ => if (S.thread s).state = .running then some (.ok (S.yield c s depth)) else none
  | S, .intr chan => some (.ok (S.wakeup1 chan))

/-! ## Boot -/

/-- An entry that has never been used. -/
def Entry.empty : Entry :=
  { pgdir := 0, kstack := 0, state := .unused, pid := 0, parent := none, killed := false
    ofile := fun _ => none, cwd := none, threads := false }

/-- A thread slot that has never been used. -/
def KThread.empty : KThread :=
  { kstack := 0, state := .unused, tid := 0, parent := none, tf := 0, context := 0, chan := .null }

/-- The state that `userinit` leaves: one process with one thread, its stack in page `k`
and its page directory in page `d`; `avail` says which other pages the allocator has. -/
def boot (ncpu k d : ℕ) (avail : ℕ → Bool) : Kernel ncpu where
  proc := update (fun _ => .empty) 0
    { Entry.empty with
      pgdir := d, kstack := k * kstacksize, state := .runnable, pid := 1, cwd := some rootino
      threads := true }
  thread := update (fun _ => .empty) (0, 0)
    { KThread.empty with
      kstack := k * kstacksize, state := .runnable
      tf := k * kstacksize + kstacksize - trapframeSize
      context := k * kstacksize + kstacksize - trapframeSize - 4 - contextSize }
  initproc := 0
  nextpid := 2
  nexttid := 1
  page := fun q =>
    if q = k then .stack 0 else if q = d then .vm d
    else if q ≠ 0 ∧ avail q then .free else .reserved
  cpu := fun _ => { thread := none, pos := none, esp0 := 0, ktop := 0, cr3 := 0 }
  code := fun _ => forkret
  bufHolder := fun _ => none
  inodeHolder := fun _ => none
  outstanding := 0
  committing := false
  units := fun _ => 0
  exiting := fun _ => false
  first := true

/-- The states in which the first process is about to run for the first time. -/
def Booted {ncpu : ℕ} (S : Kernel ncpu) : Prop :=
  ∃ k d avail, k ≠ 0 ∧ d ≠ 0 ∧ k ≠ d ∧ S = boot ncpu k d avail

/-! ## Runs to start from

Two processors; the first process runs on the first, and has a child, which runs on the
second. -/

/-- The first processor. -/
abbrev cpu0 : Fin 2 := 0

/-- The second processor. -/
abbrev cpu1 : Fin 2 := 1

/-- The thread on `c` goes on, no page is needed. -/
def go (c : Fin 2) : Act 2 := .run c ⟨0, [], 0⟩

/-- The thread on `c` goes on, and is given page `q`. -/
def goPage (c : Fin 2) (q : ℕ) : Act 2 := .run c ⟨0, [q], 0⟩

/-- The thread on `c` enters the kernel with a system call and performs `n` operations. -/
def calls (c : Fin 2) (call : Sys) (n : ℕ) : List (Act 2) :=
  .enter c (.syscall call) :: List.replicate n (go c)

/-- All pages but the first are free; the first process has pages 10 and 11. -/
def booted : Kernel 2 := boot 2 10 11 fun _ => true

theorem booted_booted : Booted booted := ⟨10, 11, _, by decide, by decide, by decide, rfl⟩

/-- The first process comes to user space. -/
def initRuns : List (Act 2) := .schedule cpu0 (0, 0) :: List.replicate 12 (go cpu0)

/-- It calls `fork`; the child has pages 20 and 21. -/
def initForks : List (Act 2) :=
  [.enter cpu0 (.syscall .fork), go cpu0, go cpu0, go cpu0, goPage cpu0 20, go cpu0, goPage cpu0 21] ++
    List.replicate 20 (go cpu0)

/-- The child comes to user space on the other processor. -/
def childRuns : List (Act 2) := initRuns ++ initForks ++ [.schedule cpu1 (1, 0), go cpu1]

end Xv6.Proc
