import Xv6.Vm.Basic

/-!
# `exec`

`exec.c`, over the memory of `Xv6.Vm.Basic`.  What `exec` does with the file system is that it
reads an inode, in a transaction and with the inode locked; what `readi` returns is a parameter
(`Reader`), so that the inode may be a file, a directory or a device.  The bytes of the local
variable `elf` that `readi` has not stored are a parameter, too.

What the process is known by, `proc->pgdir`, `proc->sz`, `proc->name` and the `eip` and `esp` of
its trap frame, is an `Image`.  The wait for the other threads before the new image is committed
is part of the model of threads, and is not repeated here.
-/

namespace Xv6.Vm

/-! ## `param.h` and `elf.h` -/

def elfMagic : ℕ := 0x464C457F

def maxarg : ℕ := 32

def elfProgLoad : ℕ := 1

/-- `struct elfhdr` -/
abbrev Elfhdr := Bytes 52

namespace Elfhdr

def magic (b : Elfhdr) : ℕ := b.num 0 4

def entry (b : Elfhdr) : ℕ := b.num 24 4

def phoff (b : Elfhdr) : ℕ := b.num 28 4

def phnum (b : Elfhdr) : ℕ := b.num 44 2

end Elfhdr

/-- `struct proghdr` -/
abbrev Proghdr := Bytes 32

namespace Proghdr

def type (b : Proghdr) : ℕ := b.num 0 4

def off (b : Proghdr) : ℕ := b.num 4 4

def vaddr (b : Proghdr) : ℕ := b.num 8 4

def filesz (b : Proghdr) : ℕ := b.num 16 4

def memsz (b : Proghdr) : ℕ := b.num 20 4

end Proghdr

/-! ## What `exec` changes -/

/-- What the process is known by. -/
structure Image where
  pgdir : ℕ
  sz : ℕ
  name : List UInt8
  eip : ℕ
  esp : ℕ

/-- What `exec` has of the file system: whether it is in a transaction, refers to the inode, and
has locked it. -/
structure FsHold where
  op : Bool
  ref : Bool
  lock : Bool
  deriving DecidableEq

namespace FsHold

def closed : FsHold := ⟨false, false, false⟩

def beginOp (h : FsHold) : FsHold := { h with op := true }

def endOp (h : FsHold) : FsHold := { h with op := false }

def namei (h : FsHold) : FsHold := { h with ref := true }

def ilock (h : FsHold) : FsHold := { h with lock := true }

def iunlockput (h : FsHold) : FsHold := { h with ref := false, lock := false }

end FsHold

/-- What `exec` returns and leaves, and the stores that it has made to the new image: those of
`loaduvm` and those of `copyout`, with the size that `allocuvm` had returned before. -/
structure Outcome where
  ret : ℤ
  image : Image
  fs : FsHold
  loads : List (ℕ × Store)
  pushes : List (ℕ × Store)
  mem : Mem

namespace Mem

/-! ## Loading -/

/-- The part of the loop that follows the reading of a program header: the number of calls of
`readi`, the size and the stores, or `none` for `goto bad`. -/
def loadSegment (L : Layout) (rd : Reader) (d : ℕ) (ph : Proghdr) (k sz : ℕ) (M : Mem) :
    Except Stop (Option (ℕ × ℕ) × List (ℕ × Store) × Mem) :=
  if ph.type ≠ elfProgLoad then .ok (some (k, sz), [], M)
  else if ph.memsz < ph.filesz then .ok (none, [], M)
  else do
    let (sz, M) ← allocuvm L M d sz ((ph.vaddr + ph.memsz) % 2 ^ 32)
    if sz = 0 then pure (none, [], M)
    else do
      let (done, k, stores, M) ← loaduvm rd k M d ph.vaddr ph.off ph.filesz
      pure (if done then some (k, sz) else none, stores.map fun st => (sz, st), M)

/-- The loop over the program headers, with `n` of them to come. -/
def loadSegments (L : Layout) (rd : Reader) (d : ℕ) :
    ℕ → ℕ → ℕ → ℕ → Mem → Except Stop (Option ℕ × List (ℕ × Store) × Mem)
  | 0, _, _, sz, M => .ok (some sz, [], M)
  | n + 1, off, k, sz, M =>
    match rd.read k off 32 with
    | none => .ok (none, [], M)
    | some bs =>
      if bs.length = 32 then do
        let (r, stores, M) ← loadSegment L rd d ((Bytes.zero : Proghdr).copy 0 bs) (k + 1) sz M
        match r with
        | none => pure (none, stores, M)
        | some (k, sz) => do
          let (r, more, M) ← loadSegments L rd d n ((off + 32) % 2 ^ 32) k sz M
          pure (r, stores ++ more, M)
      else .ok (none, [], M)

/-! ## Arguments -/

/-- The loop over `argv`: the stack pointer and the addresses of the strings, or `none` for
`goto bad`. -/
def pushStrings (d : ℕ) :
    List (List UInt8) → List ℕ → ℕ → Mem → Except Stop (Option (ℕ × List ℕ) × List Store × Mem)
  | [], addrs, sp, M => .ok (some (sp, addrs), [], M)
  | arg :: argv, addrs, sp, M =>
    if maxarg ≤ addrs.length then .ok (none, [], M)
    else do
      let sp := (sp + 2 ^ 32 - (arg.length + 1)) % 2 ^ 32 / 4 * 4
      let (done, stores, M) ← M.copyout d sp (arg ++ [0])
      if done then do
        let (r, more, M) ← pushStrings d argv (addrs ++ [sp]) sp M
        pure (r, stores ++ more, M)
      else pure (none, stores, M)

/-- A word in memory. -/
def wordBytes (w : ℕ) : List UInt8 :=
  [UInt8.ofNat w, UInt8.ofNat (w / 2 ^ 8), UInt8.ofNat (w / 2 ^ 16), UInt8.ofNat (w / 2 ^ 24)]

/-- The pushing of the arguments: the stack pointer, or `none` for `goto bad`. -/
def pushArgs (d sz : ℕ) (argv : List (List UInt8)) (M : Mem) :
    Except Stop (Option ℕ × List Store × Mem) := do
  match ← pushStrings d argv [] sz M with
  | (none, stores, M) => pure (none, stores, M)
  | (some (sp, addrs), stores, M) => do
    let argc := addrs.length
    let ustack :=
      [0xffffffff, argc, (sp + 2 ^ 32 - (argc + 1) * 4) % 2 ^ 32] ++ addrs ++ [0]
    let sp := (sp + 2 ^ 32 - (3 + argc + 1) * 4) % 2 ^ 32
    let (done, more, M) ← M.copyout d sp (ustack.flatMap wordBytes)
    pure (if done then some sp else none, stores ++ more, M)

/-! ## `exec` -/

/-- The result of a call of `readi`, as an unsigned number. -/
def readCount : Option (List UInt8) → ℕ
  | none => 2 ^ 32 - 1
  | some bs => bs.length

/-- The header after `readi` was called for it. -/
def readElf (elf : Elfhdr) : Option (List UInt8) → Elfhdr
  | none => elf
  | some bs => elf.copy 0 bs

/-- The last element of a path, cut to what `proc->name` can hold. -/
def progName (path : List UInt8) : List UInt8 :=
  (path.reverse.takeWhile fun c => c != 47).reverse.take 15

/-- The code at `bad`; `ip` tells whether the inode is still held. -/
def execBad (L : Layout) (pgdir : Option ℕ) (ip : Bool) (fs : FsHold) (P : Image)
    (loads pushes : List (ℕ × Store)) (M : Mem) : Except Stop Outcome := do
  let M ← match pgdir with
    | none => .ok M
    | some d => M.freevm L (some d)
  let fs := if ip then fs.iunlockput.endOp else fs
  pure ⟨-1, P, fs, loads, pushes, M⟩

/-- What follows when the program has been loaded. -/
def execStack (L : Layout) (d entry : ℕ) (fs : FsHold) (path : List UInt8)
    (argv : List (List UInt8)) (P : Image) (sz : ℕ) (loads : List (ℕ × Store)) (M : Mem) :
    Except Stop Outcome := do
  let (sz, M) ← allocuvm L M d (pgroundup sz) ((pgroundup sz + 2 * pgsize) % 2 ^ 32)
  if sz = 0 then execBad L (some d) false fs P loads [] M
  else do
    let M ← M.clearpteu d (sz - 2 * pgsize)
    match ← pushArgs d sz argv M with
    | (none, stores, M) =>
      execBad L (some d) false fs P loads (stores.map fun st => (sz, st)) M
    | (some sp, stores, M) => do
      let M ← M.freevm L (some P.pgdir)
      pure ⟨0, ⟨d, sz, progName path, entry, sp⟩, fs, loads, stores.map fun st => (sz, st), M⟩

/-- `exec`, with what `namei` finds, and the bytes that are in `elf` to begin with. -/
def exec (L : Layout) (ip : Option Reader) (elf₀ : Elfhdr) (path : List UInt8)
    (argv : List (List UInt8)) (P : Image) (M : Mem) : Except Stop Outcome :=
  let fs := FsHold.closed.beginOp
  match ip with
  | none => .ok ⟨-1, P, fs.endOp, [], [], M⟩
  | some rd =>
    let fs := fs.namei.ilock
    let r := rd.read 0 0 52
    let elf := readElf elf₀ r
    if readCount r < 52 then execBad L none true fs P [] [] M
    else if elf.magic ≠ elfMagic then execBad L none true fs P [] [] M
    else do
      match ← setupkvm L M with
      | (none, M) => execBad L none true fs P [] [] M
      | (some d, M) => do
        match ← loadSegments L rd d elf.phnum elf.phoff 1 0 M with
        | (none, loads, M) => execBad L (some d) true fs P loads [] M
        | (some sz, loads, M) =>
          execStack L d elf.entry fs.iunlockput.endOp path argv P sz loads M

end Mem
end Xv6.Vm
