import Xv6.Lib.Prog
import Xv6.Param
import Mathlib.Data.Int.Notation

/-!
# The name-space calls of `sysfile.c`, as programs

The functions of `fs.c` and `sysfile.c` that deal with inodes, directories and paths,
written as trees of the operations that they perform on the inode cache, on directories
and on the process's descriptors.  What an operation does is said elsewhere, once for
the file system as a name space and once for the kernel that schedules the threads; the
text of the calls is the same for both.

An operation is what the source does under one lock, or while it holds the inode:

* `iget`, `idup`, `iunlock` and the two halves of `iput` are the critical sections of
  `icache.lock`; `ifree` is what `iput` does in between when it frees the inode.
* `itype`, `nlink`, `addLink`, `initInode`, `dirFind`, `dirAdd`, `dirEmpty` and
  `dirClear` look at or change an inode that the caller has locked.
* `ialloc` is the search for a free inode on disk, up to the `iget` that follows it.
* `ofile` and `setOfile` are single accesses to `proc->ofile[]`; `filealloc`, `filedup`
  and `fileDrop` are the critical sections of `ftable.lock`.

Inodes in memory are places in `icache.inode`; `iget` answers with the place that it has
found or taken.  There is one device, so `dp->dev != ip->dev` is never true and is not
written out.  A system call gets its arguments as `argstr` and `argint` deliver them; `none` stands for
arguments that could not be fetched.
-/

namespace Xv6.Fs

/-- An inode number. -/
abbrev Inum := ℕ

/-- A `struct inode *`: an index into `icache.inode`. -/
abbrev Ptr := ℕ

/-- A directory entry's name, at most `DIRSIZ` bytes, without padding. -/
abbrev Name := List UInt8

/-- An index into `ftable.file`. -/
abbrev FileId := ℕ

/-- The type of an inode; `none` is the `0` of a free one. -/
inductive IType where
  | none
  | dir
  | file
  | dev
  deriving DecidableEq

/-- What an open file is, apart from its offset and access mode. -/
inductive FileObj where
  | none
  | pipe (p : ℕ) (writable : Bool)
  | inode (ip : Ptr)
  deriving DecidableEq

/-- The panics of the functions below, by their texts, and `fault`, the use of a null
inode pointer. -/
inductive FsPanic where
  | dirlookupNotDir
  | unlinkNlink
  | createDots
  | createDirlink
  | fault
  deriving DecidableEq

/-- The operations. -/
inductive FsOp where
  | beginOp
  | endOp
  | cwd
  | setCwd (ip : Option Ptr)
  | iget (inum : Inum)
  | idup (ip : Ptr)
  | ilock (ip : Ptr)
  | iunlock (ip : Ptr)
  /-- The test of `iput`: is this the last reference to an inode without links?  If so
  the inode is marked `I_BUSY`. -/
  | iputTest (ip : Ptr)
  /-- `itrunc(ip); ip->type = 0; iupdate(ip)` -/
  | ifree (ip : Ptr)
  /-- The end of `iput`, which also clears `ip->flags` when the inode was freed. -/
  | iputEnd (ip : Ptr) (freed : Bool)
  | itype (ip : Ptr)
  | nlink (ip : Ptr)
  /-- `ip->nlink += d; iupdate(ip)` -/
  | addLink (ip : Ptr) (d : ℤ)
  /-- `ip->major = major; ip->minor = minor; ip->nlink = 1; iupdate(ip)` -/
  | initInode (ip : Ptr) (major minor : ℤ)
  /-- The first live entry of `dp` called `name`: its inode number and its offset. -/
  | dirFind (dp : Ptr) (name : Name)
  /-- Write `(name, ip->inum)` into the first empty entry of `dp`, or behind the last. -/
  | dirAdd (dp : Ptr) (name : Name) (ip : Ptr)
  | dirEmpty (dp : Ptr)
  /-- Write an empty entry at `off`. -/
  | dirClear (dp : Ptr) (off : ℕ)
  /-- Find a free inode on disk and mark it with type `ty`. -/
  | ialloc (ty : IType)
  | ofile (fd : Fin nofile)
  | setOfile (fd : Fin nofile) (f : Option FileId)
  | filealloc
  | filedup (f : FileId)
  /-- `f->type = FD_INODE; f->ip = ip; f->off = 0`, and the access mode. -/
  | fileSet (f : FileId) (ip : Ptr) (omode : UInt32)
  /-- The critical section of `fileclose`: what was closed, if `f` has no more users. -/
  | fileDrop (f : FileId)
  | pipeclose (p : ℕ) (writable : Bool)
  | panic (msg : FsPanic)

/-- The answers to the operations. -/
abbrev FsOp.Ans : FsOp → Type
  | .cwd => Option Ptr
  | .iget _ => Ptr
  | .iputTest _ => Bool
  | .itype _ => IType
  | .nlink _ => ℤ
  | .dirFind _ _ => Option (Inum × ℕ)
  | .dirEmpty _ => Bool
  | .ialloc _ => Inum
  | .ofile _ => Option FileId
  | .filealloc => Option FileId
  | .fileDrop _ => Option FileObj
  | .panic _ => Empty
  | _ => Unit

/-- Programs over these operations. -/
abbrev FsProg := Prog FsOp FsOp.Ans

/-- Perform one operation. -/
def op (e : FsOp) : FsProg e.Ans := Prog.perform e

/-- A panic ends the program. -/
def panic {α : Type} (msg : FsPanic) : FsProg α := Prog.vis (.panic msg) Empty.elim

/-! ## Inodes -/

def iput (ip : Ptr) : FsProg Unit := do
  let last ← op (.iputTest ip)
  Prog.when last (op (.ifree ip))
  op (.iputEnd ip last)

def iunlockput (ip : Ptr) : FsProg Unit := do
  op (.iunlock ip)
  iput ip

/-- `ialloc`, with its `iget`. -/
def ialloc (ty : IType) : FsProg Ptr := do
  let inum ← op (.ialloc ty)
  op (.iget inum)

/-! ## Directories -/

def dirlookup (dp : Ptr) (name : Name) : FsProg (Option (Ptr × ℕ)) := do
  if (← op (.itype dp)) ≠ .dir then panic .dirlookupNotDir
  else
    match ← op (.dirFind dp name) with
    | none => pure none
    | some (inum, off) => do
      let ip ← op (.iget inum)
      pure (some (ip, off))

/-- `dirlink(dp, name, ip->inum)`; `false` is the `-1` of a name that is present. -/
def dirlink (dp : Ptr) (name : Name) (ip : Ptr) : FsProg Bool := do
  match ← dirlookup dp name with
  | some (old, _) => do
    iput old
    pure false
  | none => do
    op (.dirAdd dp name ip)
    pure true

/-! ## Paths -/

/-- `'/'` -/
def slash : UInt8 := 47

/-- The name `"."`. -/
def dot : Name := [46]

/-- The name `".."`. -/
def dotdot : Name := [46, 46]

/-- `skipelem`: the rest of the path and the element taken off it. -/
def skipelem (path : List UInt8) : Option (List UInt8 × Name) :=
  let path := path.dropWhile (· == slash)
  if path = [] then none
  else some ((path.dropWhile (· != slash)).dropWhile (· == slash),
    (path.takeWhile (· != slash)).take dirsiz)

/-- The elements that `skipelem` takes off a path, one after the other. -/
def elemsFrom : ℕ → List UInt8 → List Name
  | 0, _ => []
  | n + 1, path =>
    match skipelem path with
    | none => []
    | some (rest, name) => name :: elemsFrom n rest

def elems (path : List UInt8) : List Name := elemsFrom path.length path

/-- The loop of `namex`, at inode `ip`; the list holds the elements still to come. -/
def namexFrom (parent : Bool) (ip : Ptr) (last : Name) :
    List Name → FsProg (Option (Ptr × Name))
  | [] =>
    if parent then do
      iput ip
      pure none
    else pure (some (ip, last))
  | name :: rest => do
    op (.ilock ip)
    if (← op (.itype ip)) ≠ .dir then do
      iunlockput ip
      pure none
    else if parent && rest.isEmpty then do
      op (.iunlock ip)
      pure (some (ip, name))
    else
      match ← dirlookup ip name with
      | none => do
        iunlockput ip
        pure none
      | some (next, _) => do
        iunlockput ip
        namexFrom parent next name rest

/-- `namex`: start at the root or at the current directory. -/
def namex (path : List UInt8) (parent : Bool) : FsProg (Option (Ptr × Name)) := do
  if path.head? = some slash then do
    let ip ← op (.iget rootino)
    namexFrom parent ip [] (elems path)
  else
    match ← op .cwd with
    | none => panic .fault
    | some ip => do
      op (.idup ip)
      namexFrom parent ip [] (elems path)

def namei (path : List UInt8) : FsProg (Option Ptr) := do
  match ← namex path false with
  | none => pure none
  | some (ip, _) => pure (some ip)

def nameiparent (path : List UInt8) : FsProg (Option (Ptr × Name)) := namex path true

/-! ## Files -/

def fileclose (f : FileId) : FsProg Unit := do
  match ← op (.fileDrop f) with
  | some (.pipe p writable) => op (.pipeclose p writable)
  | some (.inode ip) => do
    op .beginOp
    iput ip
    op .endOp
  | _ => pure ()

/-- The loop of `fdalloc` over the descriptors still to be looked at. -/
def fdallocFrom (f : FileId) : List (Fin nofile) → FsProg (Option (Fin nofile))
  | [] => pure none
  | fd :: fds => do
    match ← op (.ofile fd) with
    | none => do
      op (.setOfile fd (some f))
      pure (some fd)
    | some _ => fdallocFrom f fds

def fdalloc (f : FileId) : FsProg (Option (Fin nofile)) := fdallocFrom f (List.finRange nofile)

/-- `argfd`: the descriptor and its file. -/
def argfd (n : ℤ) : FsProg (Option (Fin nofile × FileId)) :=
  if h : 0 ≤ n ∧ n < nofile then do
    let fd : Fin nofile := ⟨n.toNat, by omega⟩
    match ← op (.ofile fd) with
    | none => pure none
    | some f => pure (some (fd, f))
  else pure none

/-! ## System calls -/

def sysDup (arg : Option ℤ) : FsProg ℤ := do
  match arg with
  | none => pure (-1)
  | some n =>
    match ← argfd n with
    | none => pure (-1)
    | some (_, f) =>
      match ← fdalloc f with
      | none => pure (-1)
      | some fd => do
        op (.filedup f)
        pure fd

def sysClose (arg : Option ℤ) : FsProg ℤ := do
  match arg with
  | none => pure (-1)
  | some n =>
    match ← argfd n with
    | none => pure (-1)
    | some (fd, f) => do
      op (.setOfile fd none)
      fileclose f
      pure 0

/-- The error exit of `sys_link`. -/
def linkBad (ip : Ptr) : FsProg ℤ := do
  op (.ilock ip)
  op (.addLink ip (-1))
  iunlockput ip
  op .endOp
  pure (-1)

/-- `sys_link`, once it has counted the new link to `ip`. -/
def linkInto (ip : Ptr) (new : List UInt8) : FsProg ℤ := do
  match ← nameiparent new with
  | none => linkBad ip
  | some (dp, name) => do
    op (.ilock dp)
    if ← dirlink dp name ip then do
      iunlockput dp
      iput ip
      op .endOp
      pure 0
    else do
      iunlockput dp
      linkBad ip

def sysLink (args : Option (List UInt8 × List UInt8)) : FsProg ℤ := do
  match args with
  | none => pure (-1)
  | some (old, new) => do
    op .beginOp
    match ← namei old with
    | none => do
      op .endOp
      pure (-1)
    | some ip => do
      op (.ilock ip)
      if (← op (.itype ip)) = .dir then do
        iunlockput ip
        op .endOp
        pure (-1)
      else do
        op (.addLink ip 1)
        op (.iunlock ip)
        linkInto ip new

/-- The error exit of `sys_unlink`. -/
def unlinkBad (dp : Ptr) : FsProg ℤ := do
  iunlockput dp
  op .endOp
  pure (-1)

/-- The last part of `sys_unlink`: the entry of `ip` at `off` goes. -/
def unlinkEntry (dp ip : Ptr) (off : ℕ) (isdir : Bool) : FsProg ℤ := do
  op (.dirClear dp off)
  Prog.when isdir (op (.addLink dp (-1)))
  iunlockput dp
  op (.addLink ip (-1))
  iunlockput ip
  op .endOp
  pure 0

/-- `sys_unlink` once it holds the parent directory. -/
def unlinkFrom (dp : Ptr) (name : Name) : FsProg ℤ := do
  if name = dot ∨ name = dotdot then unlinkBad dp
  else
    match ← dirlookup dp name with
    | none => unlinkBad dp
    | some (ip, off) => do
      op (.ilock ip)
      if (← op (.nlink ip)) < 1 then panic .unlinkNlink
      else if (← op (.itype ip)) = .dir then
        if ← op (.dirEmpty ip) then unlinkEntry dp ip off true
        else do
          iunlockput ip
          unlinkBad dp
      else unlinkEntry dp ip off false

def sysUnlink (arg : Option (List UInt8)) : FsProg ℤ := do
  match arg with
  | none => pure (-1)
  | some path => do
    op .beginOp
    match ← nameiparent path with
    | none => do
      op .endOp
      pure (-1)
    | some (dp, name) => do
      op (.ilock dp)
      unlinkFrom dp name

/-- `create` of a directory: the link for `".."`, and the entries `"."` and `".."`. -/
def createDots (dp ip : Ptr) : FsProg Unit := do
  op (.addLink dp 1)
  if ← dirlink ip dot ip then
    if ← dirlink ip dotdot dp then pure () else panic .createDots
  else panic .createDots

/-- The last part of `create`: the new inode `ip` gets its entries. -/
def createEntries (dp : Ptr) (name : Name) (ip : Ptr) (ty : IType) : FsProg (Option Ptr) := do
  Prog.when (ty = .dir) (createDots dp ip)
  if ← dirlink dp name ip then do
    iunlockput dp
    pure (some ip)
  else panic .createDirlink

/-- `create`: the locked inode, existing or new. -/
def create (path : List UInt8) (ty : IType) (major minor : ℤ) : FsProg (Option Ptr) := do
  match ← nameiparent path with
  | none => pure none
  | some (dp, name) => do
    op (.ilock dp)
    match ← dirlookup dp name with
    | some (ip, _) => do
      iunlockput dp
      op (.ilock ip)
      if ty = .file ∧ (← op (.itype ip)) = .file then pure (some ip)
      else do
        iunlockput ip
        pure none
    | none => do
      let ip ← ialloc ty
      op (.ilock ip)
      op (.initInode ip major minor)
      createEntries dp name ip ty

def oRdonly : UInt32 := 0

def oCreate : UInt32 := 0x200

/-- The last part of `sys_open`, with the locked inode `ip`. -/
def openFile (ip : Ptr) (omode : UInt32) : FsProg ℤ := do
  match ← op .filealloc with
  | none => do
    iunlockput ip
    op .endOp
    pure (-1)
  | some f =>
    match ← fdalloc f with
    | none => do
      fileclose f
      iunlockput ip
      op .endOp
      pure (-1)
    | some fd => do
      op (.iunlock ip)
      op .endOp
      op (.fileSet f ip omode)
      pure fd

def sysOpen (args : Option (List UInt8 × UInt32)) : FsProg ℤ := do
  match args with
  | none => pure (-1)
  | some (path, omode) => do
    op .beginOp
    if omode &&& oCreate ≠ 0 then
      match ← create path .file 0 0 with
      | none => do
        op .endOp
        pure (-1)
      | some ip => openFile ip omode
    else
      match ← namei path with
      | none => do
        op .endOp
        pure (-1)
      | some ip => do
        op (.ilock ip)
        if (← op (.itype ip)) = .dir ∧ omode ≠ oRdonly then do
          iunlockput ip
          op .endOp
          pure (-1)
        else openFile ip omode

/-- What `sys_mkdir` and `sys_mknod` do: create a node and let go of it. -/
def makeNode (arg : Option (List UInt8)) (ty : IType) (major minor : ℤ) : FsProg ℤ := do
  op .beginOp
  match arg with
  | none => do
    op .endOp
    pure (-1)
  | some path =>
    match ← create path ty major minor with
    | none => do
      op .endOp
      pure (-1)
    | some ip => do
      iunlockput ip
      op .endOp
      pure 0

def sysMkdir (arg : Option (List UInt8)) : FsProg ℤ := makeNode arg .dir 0 0

def sysMknod (arg : Option (List UInt8)) (major minor : ℤ) : FsProg ℤ :=
  makeNode arg .dev major minor

def sysChdir (arg : Option (List UInt8)) : FsProg ℤ := do
  op .beginOp
  match arg with
  | none => do
    op .endOp
    pure (-1)
  | some path =>
    match ← namei path with
    | none => do
      op .endOp
      pure (-1)
    | some ip => do
      op (.ilock ip)
      if (← op (.itype ip)) ≠ .dir then do
        iunlockput ip
        op .endOp
        pure (-1)
      else do
        op (.iunlock ip)
        match ← op .cwd with
        | none => panic .fault
        | some old => do
          iput old
          op .endOp
          op (.setCwd (some ip))
          pure 0

/-! ## What `exit` does first -/

/-- Close one descriptor. -/
def exitClose (fd : Fin nofile) : FsProg Unit := do
  match ← op (.ofile fd) with
  | none => pure ()
  | some f => do
    fileclose f
    op (.setOfile fd none)

/-- `exit` before it takes `ptable.lock`: all descriptors and the current directory. -/
def exitFiles : FsProg Unit := do
  Prog.each exitClose (List.finRange nofile)
  op .beginOp
  match ← op .cwd with
  | none => panic .fault
  | some ip => do
    iput ip
    op .endOp
    op (.setCwd none)

end Xv6.Fs
