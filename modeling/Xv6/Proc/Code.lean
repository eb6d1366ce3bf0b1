import Xv6.Proc.Basic

/-!
# What threads do in the kernel

The code that a thread runs between entering the kernel and leaving it, as trees of
operations.  An operation is one critical section of `ptable.lock` or of another lock,
or one unlocked access to shared memory; whatever happens inside it happens at once, and
another processor can do anything between two operations.  An operation that puts its
thread to sleep is performed again when the thread is back.

The calls on files are those of `Fs.Calls`, each of their operations replaced by what it
does with buffers (`lower`).  What matters here is which buffers, inodes and log
operations a thread holds when; the data that flows through them does not, so where the
source branches on it the code asks the operation `choose`, which can have any answer:
what a directory contains, how many blocks a file has, whether a descriptor is a pipe.
-/

namespace Xv6.Proc

open Fs (Inum FileId IType FileObj FsOp FsProg)

/-- The operations. -/
inductive KOp where
  | killed
  | setKilled
  /-- The critical section of `allocproc`. -/
  | procAlloc
  /-- `p->kstack = kalloc()`, and `p->state = UNUSED` if that fails. -/
  | stackAlloc (p : PId)
  /-- The rest of `allocproc`. -/
  | procInit (p : PId)
  /-- `np->pgdir = copyuvm(proc->pgdir, proc->sz)` -/
  | copyuvm (np : PId)
  /-- The failure exit of `fork`. -/
  | forkFail (np : PId)
  /-- `fork` from `np->sz = proc->sz` to the trap frame. -/
  | forkThread (np : PId)
  /-- `if(proc->ofile[fd]) np->ofile[fd] = filedup(proc->ofile[fd])` -/
  | forkFile (np : PId) (fd : Fin nofile)
  /-- `np->cwd = idup(proc->cwd)` -/
  | forkCwd (np : PId)
  /-- The critical section of `fork`. -/
  | forkDone (np : PId)
  /-- The critical section of `kthread_create`. -/
  | threadAlloc
  /-- `kthread_create` from `sp = ...` to `t->parent = proc`. -/
  | threadInit (t : TId) (size : ℕ)
  /-- `t->state = RUNNABLE; return t->tid` -/
  | threadReady (t : TId)
  /-- The critical section of `kthread_exit`; it is answered in the last thread only. -/
  | threadExit
  | threadJoin (tid : Int32)
  /-- `if(proc == initproc) panic("init exiting")` -/
  | exitEnter
  /-- The critical section of `exit`. -/
  | exitDone
  | wait
  | kill (pid : Int32)
  | wakeup (chan : Chan)
  /-- `while(...) sleep(chan, lk)` for a condition that is not modelled; if `intr`, the
  loop is left when the process has been killed, and the answer is `false`. -/
  | await (chan : Chan) (intr : Bool)
  | setupkvm
  | allocuvm (d : ℕ)
  | deallocuvm (d : ℕ)
  | pgdir
  | setPgdir (d : ℕ)
  | switchuvm
  | freevm (d : ℕ)
  | pipeAlloc
  | pipeFree
  /-- `thread->tf = tf` in `trap`. -/
  | setTf
  /-- `forkret`: is this its first call? -/
  | forkret
  | bget
  | iderw (b : Fin nbuf)
  | logWrite (b : Fin nbuf)
  | brelse (b : Fin nbuf)
  /-- `ilock` up to and including `ip->flags |= I_BUSY`. -/
  | ilock (ip : Inum)
  | iunlock (ip : Inum)
  | iputTest (ip : Inum)
  | iputEnd (ip : Inum) (freed : Bool)
  | beginOp
  /-- The first critical section of `end_op`: is there something to commit? -/
  | endOp
  /-- The second critical section of `end_op`. -/
  | commitEnd
  | ofile (fd : Fin nofile)
  | setOfile (fd : Fin nofile) (f : Option FileId)
  | cwd
  | setCwd (ip : Option Inum)
  | choose
  | panic

/-- The answers to the operations. -/
abbrev KOp.Ans : KOp → Type
  | .killed => Bool
  | .procAlloc => Option PId
  | .stackAlloc _ => Bool
  | .copyuvm _ => Bool
  | .forkDone _ => Int32
  | .threadAlloc => Option TId
  | .threadReady _ => Int32
  | .threadJoin _ => Int32
  | .exitDone => Empty
  | .wait => Int32
  | .kill _ => Int32
  | .await _ _ => Bool
  | .setupkvm => Option ℕ
  | .allocuvm _ => Bool
  | .pgdir => ℕ
  | .pipeAlloc => Bool
  | .forkret => Bool
  | .bget => Fin nbuf
  | .iputTest _ => Bool
  | .endOp => Bool
  | .ofile _ => Option FileId
  | .cwd => Option Inum
  | .choose => ℕ
  | .panic => Empty
  | _ => Unit

/-- Code over these operations. -/
abbrev KProg := Prog KOp KOp.Ans

/-- Perform one operation. -/
def kop (e : KOp) : KProg e.Ans := Prog.perform e

def kpanic {α : Type} : KProg α := Prog.vis .panic Empty.elim

/-- A branch on something that is not modelled. -/
def maybe : KProg Bool := do
  let n ← kop .choose
  pure (n != 0)

/-- A loop whose number of rounds is not modelled. -/
def someTimes (body : KProg Unit) : KProg Unit := do
  let n ← kop .choose
  Prog.each (fun _ => body) (List.range n)

/-! ## Buffers and the log -/

/-- `bread`; a valid buffer needs no `iderw`. -/
def bread : KProg (Fin nbuf) := do
  let b ← kop .bget
  Prog.when (← maybe) (kop (.iderw b))
  pure b

/-- Read a block, look at it and let it go. -/
def bpeek : KProg Unit := do
  let b ← bread
  kop (.brelse b)

/-- Read a block, change it, log it and let it go. -/
def bmodify : KProg Unit := do
  let b ← bread
  kop (.logWrite b)
  kop (.brelse b)

/-- One round of `write_log`, and of `install_trans`: two blocks are held. -/
def copyBlock : KProg Unit := do
  let src ← bread
  let dst ← bread
  kop (.iderw dst)
  kop (.brelse src)
  kop (.brelse dst)

def writeHead : KProg Unit := do
  let b ← bread
  kop (.iderw b)
  kop (.brelse b)

/-- `commit`; there may be nothing in the log. -/
def commit : KProg Unit := do
  Prog.when (← maybe) do
    someTimes copyBlock
    writeHead
    someTimes copyBlock
    writeHead

def endOp : KProg Unit := do
  Prog.when (← kop .endOp) do
    commit
    kop .commitEnd

/-- `initlog`: `readsb`, `read_head`, `install_trans`, `write_head`. -/
def initlog : KProg Unit := do
  bpeek
  bpeek
  someTimes copyBlock
  writeHead

/-! ## Blocks and inodes -/

def readsb : KProg Unit := bpeek

/-- `balloc`: some bitmap blocks are full, then one is not, or there is none. -/
def balloc : KProg Unit := do
  readsb
  someTimes bpeek
  if ← maybe then do
    bmodify
    -- `bzero`
    bmodify
  else kpanic

def bfree : KProg Unit := do
  readsb
  bmodify

def iupdate : KProg Unit := bmodify

/-- `bmap` behind the indirect block, which is held meanwhile. -/
def bmapIndirect : KProg Unit := do
  Prog.when (← maybe) balloc
  let b ← bread
  Prog.when (← maybe) do
    balloc
    kop (.logWrite b)
  kop (.brelse b)

/-- `bmap`: a direct block, or one behind the indirect block. -/
def bmap : KProg Unit := do
  if ← maybe then Prog.when (← maybe) balloc else bmapIndirect

/-- `itrunc` behind the indirect block. -/
def itruncIndirect : KProg Unit := do
  let b ← bread
  someTimes bfree
  kop (.brelse b)
  bfree

def itrunc : KProg Unit := do
  someTimes bfree
  Prog.when (← maybe) itruncIndirect
  iupdate

/-- `ilock`, with the read from disk that an invalid inode needs. -/
def ilock (ip : Inum) : KProg Unit := do
  kop (.ilock ip)
  Prog.when (← maybe) bpeek

/-- `consoleread`, which lets go of the inode while it waits. -/
def consoleread (ip : Inum) : KProg Unit := do
  kop (.iunlock ip)
  let _ ← kop (.await .input true)
  ilock ip

def consolewrite (ip : Inum) : KProg Unit := do
  kop (.iunlock ip)
  ilock ip

/-- `readi`: of a device, or of some blocks. -/
def readi (ip : Inum) : KProg Unit := do
  if ← maybe then consoleread ip
  else someTimes do
    bmap
    bpeek

/-- `writei`: to a device, or to some blocks, with `iupdate` if the file has grown. -/
def writei (ip : Inum) : KProg Unit := do
  if ← maybe then consolewrite ip
  else do
    someTimes do
      bmap
      bmodify
    Prog.when (← maybe) iupdate

/-- `readi` of a directory, which is not a device. -/
def readDir : KProg Unit := someTimes do
  bmap
  bpeek

/-- `writei` to a directory. -/
def writeDir : KProg Unit := do
  bmap
  bmodify
  Prog.when (← maybe) iupdate

/-- A file type that is not modelled. -/
def someType : KProg IType := do
  match ← kop .choose with
  | 0 => pure .dir
  | 1 => pure .file
  | 2 => pure .dev
  | _ => pure .none

/-- `pipeclose`, with the end that is closed. -/
def pipeclose (p : ℕ) (writable : Bool) : KProg Unit := do
  kop (.wakeup (if writable then .pipeRead p else .pipeWrite p))
  Prog.when (← maybe) (kop .pipeFree)

/-- What `fileclose` finds: a file with other users, or what it closes. -/
def closedFile : KProg (Option FileObj) := do
  match ← kop .choose with
  | 0 => pure none
  | 1 => pure (some .none)
  | 2 => do pure (some (.pipe (← kop .choose) (← maybe)))
  | _ => do pure (some (.inode (← kop .choose)))

/-- What the operations of the file-system calls do in the kernel. -/
def lower : (e : FsOp) → KProg e.Ans
  | .beginOp => kop .beginOp
  | .endOp => endOp
  | .cwd => kop .cwd
  | .setCwd ip => kop (.setCwd ip)
  | .iget _ => kop .choose
  | .idup _ => pure ()
  | .ilock ip => ilock ip
  | .iunlock ip => kop (.iunlock ip)
  | .iputTest ip => kop (.iputTest ip)
  | .ifree _ => do
    itrunc
    iupdate
  | .iputEnd ip freed => kop (.iputEnd ip freed)
  | .itype _ => someType
  | .nlink _ => do pure (Int.ofNat (← kop .choose))
  | .addLink _ _ => iupdate
  | .initInode _ _ _ => iupdate
  | .dirFind _ _ => do
    readDir
    if ← maybe then do pure (some (← kop .choose, ← kop .choose)) else pure none
  | .dirAdd _ _ _ => do
    readDir
    writeDir
  | .dirEmpty _ => do
    readDir
    maybe
  | .dirClear _ _ => writeDir
  | .ialloc _ => do
    readsb
    someTimes bpeek
    bmodify
    kop .choose
  | .ofile fd => kop (.ofile fd)
  | .setOfile fd f => kop (.setOfile fd f)
  | .filealloc => do
    if ← maybe then do pure (some (← kop .choose)) else pure none
  | .filedup _ => pure ()
  | .fileSet _ _ _ => pure ()
  | .fileDrop _ => closedFile
  | .pipeclose p writable => pipeclose p writable
  | .panic _ => kpanic

/-- A file-system call in the kernel. -/
def fsCall {α : Type} (p : FsProg α) : KProg α := p.interp lower

/-! ## Reading and writing files -/

def piperead (p : ℕ) : KProg Unit := do
  Prog.when (← kop (.await (.pipeRead p) true)) (kop (.wakeup (.pipeWrite p)))

/-- One round of `pipewrite` in which the pipe is full. -/
def pipeFull (p : ℕ) : KProg Unit := do
  kop (.wakeup (.pipeRead p))
  let _ ← kop (.await (.pipeWrite p) true)

def pipewrite (p : ℕ) : KProg Unit := do
  someTimes (pipeFull p)
  kop (.wakeup (.pipeRead p))

def fileread : KProg Unit := do
  match ← kop .choose with
  | 0 => pure ()
  | 1 => piperead (← kop .choose)
  | 2 => do
    let ip ← kop .choose
    ilock ip
    readi ip
    kop (.iunlock ip)
  | _ => kpanic

/-- One round of `filewrite`. -/
def writeChunk (ip : Inum) : KProg Unit := do
  kop .beginOp
  ilock ip
  writei ip
  kop (.iunlock ip)
  endOp

def filewrite : KProg Unit := do
  match ← kop .choose with
  | 0 => pure ()
  | 1 => pipewrite (← kop .choose)
  | 2 => do
    let ip ← kop .choose
    someTimes (writeChunk ip)
  | _ => kpanic

def filestat : KProg Unit := do
  Prog.when (← maybe) do
    let ip ← kop .choose
    ilock ip
    kop (.iunlock ip)

/-- `sys_read`, `sys_write` and `sys_fstat`: the descriptor, then the call. -/
def onFile (n : ℤ) (call : KProg Unit) : KProg Unit := do
  match ← fsCall (Fs.argfd n) with
  | none => pure ()
  | some _ => call

/-- `sys_pipe`; `pipealloc` may fail, and so may either descriptor. -/
def sysPipe : KProg Unit := do
  if ← kop .pipeAlloc then do
    let rf ← kop .choose
    let wf ← kop .choose
    match ← fsCall (Fs.fdalloc rf) with
    | none => do
      fsCall (Fs.fileclose rf)
      fsCall (Fs.fileclose wf)
    | some fd0 =>
      match ← fsCall (Fs.fdalloc wf) with
      | none => do
        kop (.setOfile fd0 none)
        fsCall (Fs.fileclose rf)
        fsCall (Fs.fileclose wf)
      | some _ => pure ()
  else pure ()

/-! ## `exec` and `growproc` -/

/-- The error exit of `exec` before the image has been read. -/
def execBad (pgdir : Option ℕ) (ip : Inum) : KProg Unit := do
  Prog.when pgdir.isSome (kop (.freevm (pgdir.getD 0)))
  fsCall (Fs.iunlockput ip)
  endOp

/-- The loop of `exec` over the program headers; `false` is `goto bad`. -/
def execLoad (d : ℕ) (ip : Inum) : ℕ → KProg Bool
  | 0 => pure true
  | n + 1 => do
    readi ip
    if ← maybe then
      if ← kop (.allocuvm d) then do
        -- `loaduvm`
        someTimes (readi ip)
        if ← maybe then execLoad d ip n else pure false
      else pure false
    else execLoad d ip n

/-- `exec` from `Allocate two pages` on.  The loop that should wait for the other
threads starts with `k = 0` and is not entered. -/
def execCommit (d : ℕ) : KProg Unit := do
  if ← kop (.allocuvm d) then
    if ← maybe then do
      let old ← kop .pgdir
      kop (.setPgdir d)
      kop .switchuvm
      kop (.freevm old)
    else kop (.freevm d)
  else kop (.freevm d)

def exec (path : List UInt8) : KProg Unit := do
  kop .beginOp
  match ← fsCall (Fs.namei path) with
  | none => endOp
  | some ip => do
    ilock ip
    readi ip
    if ← maybe then
      match ← kop .setupkvm with
      | none => execBad none ip
      | some d => do
        let n ← kop .choose
        if ← execLoad d ip n then do
          fsCall (Fs.iunlockput ip)
          endOp
          execCommit d
        else execBad (some d) ip
    else execBad none ip

def growproc : KProg Unit := do
  let d ← kop .pgdir
  if ← maybe then
    Prog.when (← kop (.allocuvm d)) (kop .switchuvm)
  else do
    kop (.deallocuvm d)
    kop .switchuvm

/-! ## Processes and threads -/

def allocproc : KProg (Option PId) := do
  match ← kop .procAlloc with
  | none => pure none
  | some p =>
    if ← kop (.stackAlloc p) then do
      kop (.procInit p)
      pure (some p)
    else pure none

def fork : KProg Int32 := do
  match ← allocproc with
  | none => pure (-1)
  | some np =>
    if ← kop (.copyuvm np) then do
      kop (.forkThread np)
      Prog.each (fun fd => kop (.forkFile np fd)) (List.finRange nofile)
      kop (.forkCwd np)
      kop (.forkDone np)
    else do
      kop (.forkFail np)
      pure (-1)

/-- `exit`, which does not return. -/
def exit : KProg Unit := do
  kop .exitEnter
  fsCall Fs.exitFiles
  let e ← kop .exitDone
  e.elim

def kthreadCreate (size : ℕ) : KProg Int32 := do
  match ← kop .threadAlloc with
  | none => pure (-1)
  | some t => do
    kop (.threadInit t size)
    kop (.threadReady t)

/-- `kthread_exit`; only the last thread of a process goes on to `exit`. -/
def kthreadExit : KProg Unit := do
  kop .threadExit
  exit

/-- `forkret`: the first process starts the log. -/
def forkret : KProg Unit := do
  Prog.when (← kop .forkret) initlog

/-! ## Traps -/

/-- The system calls, with their arguments, and the other traps from user space. -/
inductive Sys where
  | fork
  | exit
  | wait
  | pipe
  | read (fd : ℤ)
  | kill (pid : Int32)
  | exec (path : Option (List UInt8))
  | fstat (fd : ℤ)
  | chdir (path : Option (List UInt8))
  | dup (fd : Option ℤ)
  | getpid
  | sbrk
  | sleep
  | uptime
  | open (args : Option (List UInt8 × UInt32))
  | write (fd : ℤ)
  | mknod (path : Option (List UInt8)) (major minor : ℤ)
  | unlink (path : Option (List UInt8))
  | link (args : Option (List UInt8 × List UInt8))
  | mkdir (path : Option (List UInt8))
  | close (fd : Option ℤ)
  | kthreadCreate (size : ℕ)
  | kthreadId
  | kthreadExit
  | kthreadJoin (tid : Int32)

/-- `syscalls[]`; the value returned to the user is not modelled. -/
def syscall : Sys → KProg Unit
  | .fork => do let _ ← fork
  | .exit => exit
  | .wait => do let _ ← kop .wait
  | .pipe => sysPipe
  | .read fd => onFile fd fileread
  | .kill pid => do let _ ← kop (.kill pid)
  | .exec none => pure ()
  | .exec (some path) => exec path
  | .fstat fd => onFile fd filestat
  | .chdir path => do let _ ← fsCall (Fs.sysChdir path)
  | .dup fd => do let _ ← fsCall (Fs.sysDup fd)
  | .getpid => pure ()
  | .sbrk => growproc
  | .sleep => do let _ ← kop (.await .ticks true)
  | .uptime => pure ()
  | .open args => do let _ ← fsCall (Fs.sysOpen args)
  | .write fd => onFile fd filewrite
  | .mknod path major minor => do let _ ← fsCall (Fs.sysMknod path major minor)
  | .unlink path => do let _ ← fsCall (Fs.sysUnlink path)
  | .link args => do let _ ← fsCall (Fs.sysLink args)
  | .mkdir path => do let _ ← fsCall (Fs.sysMkdir path)
  | .close fd => do let _ ← fsCall (Fs.sysClose fd)
  | .kthreadCreate size => do let _ ← kthreadCreate size
  | .kthreadId => pure ()
  | .kthreadExit => kthreadExit
  | .kthreadJoin tid => do let _ ← kop (.threadJoin tid)

/-- `if(proc->killed) exit();` -/
def exitIfKilled : KProg Unit := do
  Prog.when (← kop .killed) exit

/-- Why a thread enters the kernel from user space. -/
inductive Trap where
  | syscall (call : Sys)
  | irq
  /-- An exception: the process is killed. -/
  | fault

/-- `trap`, from user space. -/
def trap : Trap → KProg Unit
  | .syscall call => do
    exitIfKilled
    kop .setTf
    syscall call
    exitIfKilled
  | .irq => exitIfKilled
  | .fault => do
    kop .setKilled
    exitIfKilled

end Xv6.Proc
