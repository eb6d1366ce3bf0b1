import Xv6.Fs.Calls

/-!
# System calls and user memory

`syscall.c`, `sysfile.c`, `sysproc.c` and what they call, as far as they look at the
memory of the process: the system calls as trees whose operations are the accesses to
user memory and to `proc->sz`, and the questions that the rest of the kernel answers.

* `fetchint`, `fetchstr`, `argint`, `argptr`, `argstr`, `argfd` --- `syscall.c`.  The
  comparisons with `proc->sz` read it each time anew, as the source does; a string is
  looked at byte by byte.
* `fileread`, `filewrite`, `filestat` and what is below them, `namex` and `exec` ---
  every byte they read from or write to user memory is an operation `load` or `store`.

A question (`Ask`) stands for what a call learns from the rest of the kernel: what an
open file is, what the inode is like once it is locked, what is in the pipe.  It carries
enough of the call's progress that no call asks the same question twice.  The chunks of
the loops of `readi` and `writei` are run together: they follow each other in user memory
and on disk.
-/

namespace Xv6.User

open Fs (IType slash)

/-! ## What a call does -/

/-- `enum { FD_NONE, FD_PIPE, FD_INODE }` -/
inductive FileType where
  | none
  | pipe
  | inode
  deriving DecidableEq

/-- `struct file`, less its reference count, its target and its offset. -/
structure OpenFile where
  type : FileType
  readable : Bool
  writable : Bool

/-- What `fileread` and `filewrite` find when they have locked the inode of a file. -/
structure Inode where
  type : IType
  major : ℤ
  size : UInt32
  off : UInt32

/-- `struct stat`, less its padding. -/
structure Stat where
  type : UInt16
  dev : UInt32
  ino : UInt32
  nlink : UInt16
  size : UInt32

/-- What a call learns from the rest of the kernel. -/
inductive Ask where
  | ofile (fd : UInt32)
  /-- What `piperead` finds in the pipe when it begins to copy; nothing, if it was killed. -/
  | pipeData
  /-- Whether `pipewrite` gets room for byte `i`. -/
  | pipeRoom (i : ℕ)
  /-- The inode, as `readi` or `writei` finds it after `i` bytes. -/
  | inode (i : ℕ)
  /-- The byte of the file at an offset. -/
  | byte (off : UInt32)
  /-- The `i`th character that `consoleread` gets; nothing, if it was killed. -/
  | getc (i : ℕ)
  | stati
  /-- The descriptors that `sys_pipe` got. -/
  | pipealloc
  /-- Whether walk `w` finds a directory, with `path` to go. -/
  | isDir (w : ℕ) (path : UInt32)
  /-- Whether walk `w` finds the element, with `path` to go. -/
  | dirlookup (w : ℕ) (path : UInt32)
  /-- Whether `sys_link` finds something that is not a directory. -/
  | linkable
  /-- Whether `exec` gets the program loaded. -/
  | loads
  /-- Whether `exec` can copy out string `i`. -/
  | copyout (i : ℕ)
  | growproc (n : UInt32)
  /-- `exec` replaces the memory of the process. -/
  | commit
  /-- What the rest of the call, which does not look at user memory, returns. -/
  | rest

/-- The answers. -/
abbrev Ask.Ans : Ask → Type
  | .ofile _ => Option OpenFile
  | .pipeData => Option (List UInt8)
  | .inode _ => Inode
  | .byte _ => UInt8
  | .getc _ => Option UInt8
  | .stati => Stat
  | .pipealloc => Option (UInt32 × UInt32)
  | .growproc _ => ℤ
  | .commit => ℤ
  | .rest => ℤ
  | .pipeRoom _ => Bool
  | .isDir _ _ => Bool
  | .dirlookup _ _ => Bool
  | .linkable => Bool
  | .loads => Bool
  | .copyout _ => Bool

/-- One access to the memory of the process or to `proc->sz`, or a question. -/
inductive Op where
  | size
  | word (a : UInt32)
  /-- `fetchstr`, called with `s`, looks at `*a`. -/
  | scan (s a : UInt32)
  /-- The second comparison of `argptr`: `(uint)i+size > proc->sz` is false. -/
  | fits (i size : UInt32)
  | load (a : UInt32)
  | store (a : UInt32) (bs : List UInt8)
  | ask (q : Ask)

abbrev Op.Ans : Op → Type
  | .size => UInt32
  | .word _ => UInt32
  | .scan _ _ => UInt8
  | .fits _ _ => Bool
  | .load _ => UInt8
  | .store _ _ => Unit
  | .ask q => q.Ans

/-- The addresses that an operation looks at or changes. -/
def Op.addresses : Op → List UInt32
  | .word a => (List.range 4).map fun j => a + UInt32.ofNat j
  | .scan _ a => [a]
  | .load a => [a]
  | .store a bs => (List.range bs.length).map fun j => a + UInt32.ofNat j
  | _ => []

/-- Code of a system call. -/
abbrev Code (α : Type) := Prog Op Op.Ans α

def op (e : Op) : Code e.Ans := Prog.perform e

def ask (q : Ask) : Code q.Ans := Prog.perform (Op.ask q)

/-- A `uint` as an `int`. -/
def asInt (n : UInt32) : ℤ := if n.toNat < 2 ^ 31 then n.toNat else n.toNat - 2 ^ 32

/-- The bytes of a `uint`. -/
def bytesOf (w : UInt32) : List UInt8 :=
  [w.toUInt8, (w >>> 8).toUInt8, (w >>> 16).toUInt8, (w >>> 24).toUInt8]

/-! ## `syscall.c` -/

def fetchint (addr : UInt32) : Code (Option UInt32) := do
  if addr ≥ (← op .size) then pure none
  else if addr + 4 > (← op .size) then pure none
  else pure (some (← op (.word addr)))

/-- The loop of `fetchstr` at `a`, with `k` bytes to go. -/
def fetchstrFrom (s : UInt32) : ℕ → UInt32 → Code (Option UInt32)
  | 0, _ => pure none
  | k + 1, a => do
    if (← op (.scan s a)) = 0 then pure (some (a - s)) else fetchstrFrom s k (a + 1)

def fetchstr (addr : UInt32) : Code (Option UInt32) := do
  if addr ≥ (← op .size) then pure none
  else
    let ep ← op .size
    fetchstrFrom addr (ep.toNat - addr.toNat) addr

/-- `argint`, for a call made with stack pointer `esp`. -/
def argint (esp : UInt32) (n : ℕ) : Code (Option UInt32) := fetchint (esp + 4 + 4 * UInt32.ofNat n)

def argptr (esp : UInt32) (n : ℕ) (size : UInt32) : Code (Option UInt32) := do
  match ← argint esp n with
  | none => pure none
  | some i =>
    if i ≥ (← op .size) then pure none
    else if ← op (.fits i size) then pure (some i)
    else pure none

/-- `argstr`, which gives the address of the string. -/
def argstr (esp : UInt32) (n : ℕ) : Code (Option UInt32) := do
  match ← argint esp n with
  | none => pure none
  | some addr =>
    match ← fetchstr addr with
    | none => pure none
    | some _ => pure (some addr)

def argfd (esp : UInt32) (n : ℕ) : Code (Option OpenFile) := do
  match ← argint esp n with
  | none => pure none
  | some fd => if asInt fd < 0 ∨ (nofile : ℤ) ≤ asInt fd then pure none else ask (.ofile fd)

/-! ## Reading and writing files -/

/-- Read `k` bytes of user memory. -/
def loads : ℕ → UInt32 → Code Unit
  | 0, _ => pure ()
  | k + 1, a => do
    let _ ← op (.load a)
    loads k (a + 1)

/-- Write bytes to user memory, one after the other. -/
def stores : List UInt8 → UInt32 → Code Unit
  | [], _ => pure ()
  | b :: bs, a => do
    op (.store a [b])
    stores bs (a + 1)

def piperead (addr n : UInt32) : Code ℤ := do
  match ← ask .pipeData with
  | none => pure (-1)
  | some data => do
    let bs := data.take (asInt n).toNat
    stores bs addr
    pure bs.length

/-- The loop of `pipewrite` at `i`, with `k` bytes to go. -/
def pipewriteFrom (addr : UInt32) : ℕ → ℕ → Code Bool
  | 0, _ => pure true
  | k + 1, i => do
    if ← ask (.pipeRoom i) then
      let _ ← op (.load (addr + UInt32.ofNat i))
      pipewriteFrom addr k (i + 1)
    else pure false

def pipewrite (addr n : UInt32) : Code ℤ := do
  if ← pipewriteFrom addr (asInt n).toNat 0 then pure (asInt n) else pure (-1)

/-- `C('D')` -/
def ctrlD : UInt8 := 4

/-- The loop of `consoleread` after `i` characters, with `k` to go, and how many it has got
in the end; nothing, if the process was killed. -/
def consolereadFrom (dst : UInt32) : ℕ → ℕ → Code (Option ℕ)
  | 0, i => pure (some i)
  | k + 1, i => do
    match ← ask (.getc i) with
    | none => pure none
    | some c =>
      if c = ctrlD then pure (some i)
      else do
        op (.store (dst + UInt32.ofNat i) [c])
        if c = 10 then pure (some (i + 1)) else consolereadFrom dst k (i + 1)

def consoleread (dst n : UInt32) : Code ℤ := do
  match ← consolereadFrom dst (asInt n).toNat 0 with
  | none => pure (-1)
  | some i => pure i

def consolewrite (buf n : UInt32) : Code ℤ := do
  loads (asInt n).toNat buf
  pure (asInt n)

/-- `CONSOLE`, the only major number for which `devsw` has functions. -/
def console : ℤ := 1

/-- The loop of `readi`, with `k` bytes to go. -/
def readiFrom : ℕ → UInt32 → UInt32 → Code Unit
  | 0, _, _ => pure ()
  | k + 1, dst, off => do
    op (.store dst [← ask (.byte off)])
    readiFrom k (dst + 1) (off + 1)

/-- `n` as `readi` clips it, for a read of an inode at `off`. -/
def clip (ip : Inode) (n : UInt32) : UInt32 := if ip.off + n > ip.size then ip.size - ip.off else n

def readi (dst n : UInt32) : Code ℤ := do
  let ip ← ask (.inode 0)
  if ip.type = .dev then
    if ip.major = console then consoleread dst n else pure (-1)
  else if ip.off > ip.size ∨ ip.off + n < ip.off then pure (-1)
  else do
    readiFrom (clip ip n).toNat dst ip.off
    pure (asInt (clip ip n))

def fileread (f : OpenFile) (addr n : UInt32) : Code ℤ :=
  if f.readable = false then pure (-1)
  else
    match f.type with
    | .pipe => piperead addr n
    | .inode => readi addr n
    | .none => pure (-1)

/-- `MAXFILE*BSIZE` -/
def maxFileBytes : UInt32 := (12 + 128) * 512

/-- A call of `writei` for `n` bytes, after `i` of them have been written; whether it
writes them. -/
def writei (src : UInt32) (i n : ℕ) : Code Bool := do
  let ip ← ask (.inode i)
  let n' := UInt32.ofNat n
  if ip.type = .dev then
    if ip.major = console then do
      let _ ← consolewrite src n'
      pure true
    else pure false
  else if ip.off > ip.size ∨ ip.off + n' < ip.off then pure false
  else if ip.off + n' > maxFileBytes then pure false
  else do
    loads n src
    pure true

/-- `((LOGSIZE-1-1-2) / 2) * 512` -/
def maxWrite : ℕ := (logSize - 1 - 1 - 2) / 2 * 512

/-- The loop of `filewrite` after `i` bytes, with `left` to go; each round writes at least
one, so `left` rounds are enough.  It returns how many bytes have been written. -/
def filewriteFrom (addr : UInt32) : ℕ → ℕ → ℕ → Code ℕ
  | 0, _, i => pure i
  | k + 1, left, i => do
    if left = 0 then pure i
    else if ← writei (addr + UInt32.ofNat i) i (min left maxWrite) then
      filewriteFrom addr k (left - min left maxWrite) (i + min left maxWrite)
    else pure i

def filewrite (f : OpenFile) (addr n : UInt32) : Code ℤ :=
  if f.writable = false then pure (-1)
  else
    match f.type with
    | .pipe => pipewrite addr n
    | .inode => do
      let i ← filewriteFrom addr (asInt n).toNat (asInt n).toNat 0
      if (i : ℤ) = asInt n then pure (asInt n) else pure (-1)
    | .none => pure (-1)

/-- `stati`, at the offsets of `struct stat`. -/
def stati (st : UInt32) (s : Stat) : Code Unit := do
  op (.store (st + 4) (bytesOf s.dev))
  op (.store (st + 8) (bytesOf s.ino))
  op (.store st (bytesOf s.type.toUInt32 |>.take 2))
  op (.store (st + 12) (bytesOf s.nlink.toUInt32 |>.take 2))
  op (.store (st + 16) (bytesOf s.size))

def filestat (f : OpenFile) (st : UInt32) : Code ℤ := do
  if f.type = .inode then
    stati st (← ask .stati)
    pure 0
  else pure (-1)

/-! ## Paths -/

/-- As many bytes as there are addresses: a string that is longer has no end. -/
def addressSpace : ℕ := 2 ^ 32

/-- `while(p(*a)) a++`, and the address at which it stops. -/
def skipWhile (p : UInt8 → Bool) : ℕ → UInt32 → Code UInt32
  | 0, a => pure a
  | k + 1, a => do
    if p (← op (.load a)) then skipWhile p k (a + 1) else pure a

/-- `skipelem`, with its copy of the element. -/
def skipelem (path : UInt32) : Code (Option UInt32) := do
  let s ← skipWhile (· == slash) addressSpace path
  if (← op (.load s)) = 0 then pure none
  else do
    let e ← skipWhile (fun c => c != slash && c != 0) addressSpace s
    loads (min (e - s).toNat dirsiz) s
    let next ← skipWhile (· == slash) addressSpace e
    pure (some next)

/-- The loop of `namex`, for walk `w`. -/
def namexFrom (w : ℕ) (parent : Bool) : ℕ → UInt32 → Code Bool
  | 0, _ => pure false
  | k + 1, path => do
    match ← skipelem path with
    | none => pure !parent
    | some next =>
      if ← ask (.isDir w next) then
        if parent && (← op (.load next)) = 0 then pure true
        else if ← ask (.dirlookup w next) then namexFrom w parent k next
        else pure false
      else pure false

/-- `namex`; whether it finds the inode. -/
def namex (w : ℕ) (path : UInt32) (parent : Bool) : Code Bool := do
  let _ ← op (.load path)
  namexFrom w parent addressSpace path

def namei (w : ℕ) (path : UInt32) : Code Bool := namex w path false

def nameiparent (w : ℕ) (path : UInt32) : Code Bool := namex w path true

/-! ## `exec` -/

def strlen (a : UInt32) : Code ℕ := do
  let e ← skipWhile (· != 0) addressSpace a
  pure (e - a).toNat

/-- The argument strings, `i` of which have been copied. -/
def copyArgs : ℕ → List UInt32 → Code Bool
  | _, [] => pure true
  | i, a :: as => do
    let _ ← strlen a
    let n ← strlen a
    loads (n + 1) a
    if ← ask (.copyout i) then copyArgs (i + 1) as else pure false

/-- `for(last=s=path; *s; s++) if(*s == '/') last = s+1;` -/
def lastElem : ℕ → UInt32 → UInt32 → Code UInt32
  | 0, _, last => pure last
  | k + 1, s, last => do
    let c ← op (.load s)
    if c = 0 then pure last
    else lastElem k (s + 1) (if c = slash then s + 1 else last)

/-- `safestrcpy`, which copies at most `k` bytes and stops after a null byte. -/
def safestrcpy : ℕ → UInt32 → Code Unit
  | 0, _ => pure ()
  | k + 1, t => do
    if (← op (.load t)) = 0 then pure () else safestrcpy k (t + 1)

def exec (path : UInt32) (argv : List UInt32) : Code ℤ := do
  if ← namei 0 path then
    if ← ask .loads then
      if ← copyArgs 0 argv then
        let last ← lastElem addressSpace path path
        safestrcpy 15 last
        ask .commit
      else pure (-1)
    else pure (-1)
  else pure (-1)

/-- The loop of `sys_exec` that fetches `argv`, at `i` with `k` rounds to go. -/
def fetchArgv (uargv : UInt32) : ℕ → ℕ → Code (Option (List UInt32))
  | 0, _ => pure none
  | k + 1, i => do
    match ← fetchint (uargv + 4 * UInt32.ofNat i) with
    | none => pure none
    | some uarg =>
      if uarg = 0 then pure (some [])
      else
        match ← fetchstr uarg with
        | none => pure none
        | some _ =>
          match ← fetchArgv uargv k (i + 1) with
          | none => pure none
          | some argv => pure (some (uarg :: argv))

def maxarg : ℕ := 32

/-! ## The calls -/

/-- The system calls that take arguments.  The others do not look at user memory. -/
inductive Syscall where
  | dup | close | read | write | fstat | pipe
  | link | unlink | open | mkdir | mknod | chdir | exec
  | kill | sbrk | sleep | kthreadCreate | kthreadJoin
  deriving DecidableEq

def sysRead (esp : UInt32) : Code ℤ := do
  match ← argfd esp 0 with
  | none => pure (-1)
  | some f =>
    match ← argint esp 2 with
    | none => pure (-1)
    | some n =>
      match ← argptr esp 1 n with
      | none => pure (-1)
      | some p => fileread f p n

def sysWrite (esp : UInt32) : Code ℤ := do
  match ← argfd esp 0 with
  | none => pure (-1)
  | some f =>
    match ← argint esp 2 with
    | none => pure (-1)
    | some n =>
      match ← argptr esp 1 n with
      | none => pure (-1)
      | some p => filewrite f p n

/-- `sizeof(struct stat)` -/
def statSize : UInt32 := 20

def sysFstat (esp : UInt32) : Code ℤ := do
  match ← argfd esp 0 with
  | none => pure (-1)
  | some f =>
    match ← argptr esp 1 statSize with
    | none => pure (-1)
    | some st => filestat f st

def sysPipe (esp : UInt32) : Code ℤ := do
  match ← argptr esp 0 8 with
  | none => pure (-1)
  | some fd =>
    match ← ask .pipealloc with
    | none => pure (-1)
    | some (fd0, fd1) => do
      op (.store fd (bytesOf fd0))
      op (.store (fd + 4) (bytesOf fd1))
      pure 0

def sysLink (esp : UInt32) : Code ℤ := do
  match ← argstr esp 0 with
  | none => pure (-1)
  | some old =>
    match ← argstr esp 1 with
    | none => pure (-1)
    | some new =>
      if ← namei 0 old then
        if ← ask .linkable then
          if ← nameiparent 1 new then ask .rest else pure (-1)
        else pure (-1)
      else pure (-1)

/-- A call that walks one path and needs nothing else of user memory. -/
def onPath (esp : UInt32) (walk : UInt32 → Code Bool) : Code ℤ := do
  match ← argstr esp 0 with
  | none => pure (-1)
  | some path => if ← walk path then ask .rest else pure (-1)

def sysUnlink (esp : UInt32) : Code ℤ := onPath esp (nameiparent 0)

def sysMkdir (esp : UInt32) : Code ℤ := onPath esp (nameiparent 0)

def sysChdir (esp : UInt32) : Code ℤ := onPath esp (namei 0)

def oCreate : UInt32 := 0x200

def sysOpen (esp : UInt32) : Code ℤ := do
  match ← argstr esp 0 with
  | none => pure (-1)
  | some path =>
    match ← argint esp 1 with
    | none => pure (-1)
    | some omode =>
      if omode &&& oCreate ≠ 0 then
        if ← nameiparent 0 path then ask .rest else pure (-1)
      else if ← namei 0 path then ask .rest
      else pure (-1)

def sysMknod (esp : UInt32) : Code ℤ := do
  match ← argstr esp 0 with
  | none => pure (-1)
  | some path =>
    match ← argint esp 1 with
    | none => pure (-1)
    | some _ =>
      match ← argint esp 2 with
      | none => pure (-1)
      | some _ => if ← nameiparent 0 path then ask .rest else pure (-1)

def sysExec (esp : UInt32) : Code ℤ := do
  match ← argstr esp 0 with
  | none => pure (-1)
  | some path =>
    match ← argint esp 1 with
    | none => pure (-1)
    | some uargv =>
      match ← fetchArgv uargv maxarg 0 with
      | none => pure (-1)
      | some argv => User.exec path argv

/-- A call with `k` more integer arguments, from the `n`th on, and no pointers. -/
def onInts (esp : UInt32) : ℕ → ℕ → Code ℤ
  | 0, _ => ask .rest
  | k + 1, n => do
    match ← argint esp n with
    | none => pure (-1)
    | some _ => onInts esp k (n + 1)

def sysSbrk (esp : UInt32) : Code ℤ := do
  match ← argint esp 0 with
  | none => pure (-1)
  | some n => do
    let addr ← op .size
    if (← ask (.growproc n)) < 0 then pure (-1) else pure (asInt addr)

/-- A call with a descriptor and no pointers. -/
def onFd (esp : UInt32) : Code ℤ := do
  match ← argfd esp 0 with
  | none => pure (-1)
  | some _ => ask .rest

/-- The code of a call made with stack pointer `esp`. -/
def Syscall.code : Syscall → UInt32 → Code ℤ
  | .dup, esp => onFd esp
  | .close, esp => onFd esp
  | .read, esp => sysRead esp
  | .write, esp => sysWrite esp
  | .fstat, esp => sysFstat esp
  | .pipe, esp => sysPipe esp
  | .link, esp => sysLink esp
  | .unlink, esp => sysUnlink esp
  | .open, esp => sysOpen esp
  | .mkdir, esp => sysMkdir esp
  | .mknod, esp => sysMknod esp
  | .chdir, esp => sysChdir esp
  | .exec, esp => sysExec esp
  | .kill, esp => onInts esp 1 0
  | .sbrk, esp => sysSbrk esp
  | .sleep, esp => onInts esp 1 0
  | .kthreadCreate, esp => onInts esp 3 0
  | .kthreadJoin, esp => onInts esp 1 0

end Xv6.User
