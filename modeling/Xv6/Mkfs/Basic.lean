import Xv6.Lib.Bytes
import Xv6.Param

/-!
# `mkfs.c`

The program that makes the file-system image, function by function.  Its `State` is
the image file and the counters `freeblock`, `usedblocks` and `freeinode`; a function that
may end in `exit(1)` or in a failed assertion returns an `Option`, and `none` is that end.

* The image file has a length, in sectors: `rsect` beyond it stops the program, `wsect`
  beyond it makes the file longer.
* A `struct dinode` is its 64 bytes; `xint` and `xshort` only say in which order the bytes of
  a number stand, and that is the order of `Bytes.num`.
* The host file system gives each file in chunks, as `read(fd, buf, 512)` returns them.
-/

namespace Xv6.Mkfs

/-- A sector. -/
abbrev Block := Bytes bsize

/-- The image file: its length in sectors, and what is in them. -/
structure Img where
  len : ℕ
  block : ℕ → Block

namespace Img

def rsect (d : Img) (sec : ℕ) : Option Block := if sec < d.len then some (d.block sec) else none

def wsect (d : Img) (sec : ℕ) (buf : Block) : Img :=
  ⟨max d.len (sec + 1), Function.update d.block sec buf⟩

end Img

/-! ## Inodes -/

/-- `struct dinode` -/
abbrev Dinode := Bytes dinodeSize

namespace Dinode

def type (din : Dinode) : ℕ := din.num 0 2

def nlink (din : Dinode) : ℕ := din.num 6 2

def size (din : Dinode) : ℕ := din.num 8 4

def addrs (din : Dinode) (i : ℕ) : ℕ := din.num (12 + 4 * i) 4

def setType (din : Dinode) (t : ℕ) : Dinode := din.setNum 0 2 t

def setNlink (din : Dinode) (n : ℕ) : Dinode := din.setNum 6 2 n

def setSize (din : Dinode) (n : ℕ) : Dinode := din.setNum 8 4 n

def setAddrs (din : Dinode) (i a : ℕ) : Dinode := din.setNum (12 + 4 * i) 4 a

end Dinode

/-- Entry `i` of an indirect block. -/
def entry (indirect : Block) (i : ℕ) : ℕ := indirect.num (4 * i) 4

def setEntry (indirect : Block) (i a : ℕ) : Block := indirect.setNum (4 * i) 4 a

def i2b (inum : ℕ) : ℕ := inum / ipb + 2

/-- Where the inode is in its sector. -/
def islot (inum : ℕ) : ℕ := dinodeSize * (inum % ipb)

def rinode (d : Img) (inum : ℕ) : Option Dinode :=
  (d.rsect (i2b inum)).map fun buf => buf.slice (islot inum) dinodeSize

def winode (d : Img) (inum : ℕ) (din : Dinode) : Option Img :=
  (d.rsect (i2b inum)).map fun buf => d.wsect (i2b inum) (buf.place (islot inum) din)

/-- The state of the program. -/
structure State where
  img : Img
  freeblock : ℕ
  usedblocks : ℕ
  freeinode : ℕ

namespace State

/-- `freeblock++; usedblocks++` -/
def take (S : State) : State :=
  { S with freeblock := S.freeblock + 1, usedblocks := S.usedblocks + 1 }

end State

def ialloc (S : State) (type : ℕ) : Option (ℕ × State) :=
  let din : Dinode := ((Dinode.setType Bytes.zero type).setNlink 1).setSize 0
  (winode S.img S.freeinode din).map fun d =>
    (S.freeinode, { S with img := d, freeinode := S.freeinode + 1 })

/-! ## `iappend` -/

/-- The indirect block of an inode, which is allocated if there is none. -/
def indirectOf (S : State) (din : Dinode) : State × Dinode :=
  if din.addrs ndirect = 0 then (S.take, din.setAddrs ndirect S.freeblock) else (S, din)

/-- The block number `x` of block `fbn` of the file, which is allocated if there is none. -/
def blockOf (S : State) (din : Dinode) (fbn : ℕ) : Option (ℕ × State × Dinode) :=
  if fbn < ndirect then
    if din.addrs fbn = 0 then some (S.freeblock, S.take, din.setAddrs fbn S.freeblock)
    else some (din.addrs fbn, S, din)
  else
    let (S, din) := indirectOf S din
    match S.img.rsect (din.addrs ndirect) with
    | none => none
    | some indirect =>
      if entry indirect (fbn - ndirect) = 0 then
        let indirect := setEntry indirect (fbn - ndirect) S.freeblock
        some (S.freeblock, { S.take with img := S.img.wsect (din.addrs ndirect) indirect }, din)
      else some (entry indirect (fbn - ndirect), S, din)

/-- One round of the loop: the bytes `p` go to block `fbn`, at `o`. -/
def putPiece (S : State) (din : Dinode) (fbn o : ℕ) (p : List UInt8) : Option (State × Dinode) :=
  match blockOf S din fbn with
  | none => none
  | some (x, S, din) =>
    match S.img.rsect x with
    | none => none
    | some buf => some ({ S with img := S.img.wsect x (buf.copy o p) }, din)

/-- `while(n > 0)` -/
def iappendFrom (S : State) (din : Dinode) (off : ℕ) (p : List UInt8) :
    Option (State × Dinode × ℕ) :=
  if p = [] then some (S, din, off)
  else
    let fbn := off / bsize
    if maxfile ≤ fbn then none
    else
      let n1 := min p.length ((fbn + 1) * bsize - off)
      match putPiece S din fbn (off - fbn * bsize) (p.take n1) with
      | none => none
      | some (S, din) => iappendFrom S din (off + n1) (p.drop n1)
termination_by p.length
decreasing_by
  have := Nat.lt_div_mul_add (a := off) (b := bsize) (by decide)
  have := List.length_pos_iff.mpr ‹p ≠ []›
  rw [List.length_drop, add_mul]
  omega

def iappend (S : State) (inum : ℕ) (p : List UInt8) : Option State :=
  match rinode S.img inum with
  | none => none
  | some din =>
    match iappendFrom S din din.size p with
    | none => none
    | some (S, din, off) => (winode S.img inum (din.setSize off)).map fun d => { S with img := d }

/-! ## `main` -/

/-- `strncpy(dst, s, n)` -/
def strncpy (s : List UInt8) (n : ℕ) : List UInt8 := s.take n ++ List.replicate (n - s.length) 0

/-- `struct dirent` -/
def dirent (inum : ℕ) (name : List UInt8) : List UInt8 :=
  [UInt8.ofNat inum, UInt8.ofNat (inum / 256)] ++ strncpy name dirsiz

/-- A file of the host. -/
structure HostFile where
  name : List UInt8
  opens : Bool
  chunks : List (List UInt8)
  chunk_len : ∀ c ∈ chunks, 0 < c.length ∧ c.length ≤ bsize

namespace HostFile

def bytes (f : HostFile) : List UInt8 := f.chunks.flatten

/-- The name without a leading `_`. -/
def target (f : HostFile) : List UInt8 := if f.name.head? = some 95 then f.name.tail else f.name

end HostFile

def iappendAll (inum : ℕ) : State → List (List UInt8) → Option State
  | S, [] => some S
  | S, p :: ps =>
    match iappend S inum p with
    | none => none
    | some S => iappendAll inum S ps

/-- One round of the loop over the arguments; `47` is the slash. -/
def addFile (S : State) (f : HostFile) : Option State :=
  if 47 ∈ f.name then none
  else if f.opens = false then none
  else
    match ialloc S 2 with
    | none => none
    | some (inum, S) =>
      match iappend S rootino (dirent inum f.target) with
      | none => none
      | some S => iappendAll inum S f.chunks

def addFiles : State → List HostFile → Option State
  | S, [] => some S
  | S, f :: fs =>
    match addFile S f with
    | none => none
    | some S => addFiles S fs

/-- `fix size of root inode dir` -/
def fixRoot (S : State) : Option State :=
  match rinode S.img rootino with
  | none => none
  | some din =>
    (winode S.img rootino (din.setSize ((din.size / bsize + 1) * bsize))).map fun d =>
      { S with img := d }

/-- The bitmap in which the first `used` bits are set. -/
def bitmap (used : ℕ) : Block :=
  (List.range used).foldl (fun buf i j => if j.val = i / 8 then buf j ||| UInt8.ofNat (1 <<< (i % 8))
    else buf j) Bytes.zero

def balloc (S : State) : Option State :=
  if bpb ≤ S.usedblocks then none
  else some { S with img := S.img.wsect (ninodes / ipb + 3) (bitmap S.usedblocks) }

/-- The super block. -/
def superblock : Block :=
  (((Bytes.zero.setNum 0 4 fssize).setNum 4 4 nblocks).setNum 8 4 ninodes).setNum 12 4 nlog

/-- What is used before the first data block. -/
def metablocks : ℕ := ninodes / ipb + 3 + (fssize / bpb + 1)

/-- The image of zeroes, with the super block. -/
def zeroed : Img :=
  ((List.range (nblocks + metablocks + nlog)).foldl (fun (d : Img) i => d.wsect i Bytes.zero)
    ⟨0, fun _ => Bytes.zero⟩).wsect 1 superblock

/-- The root directory, with its first two entries. -/
def makeRoot : Option State :=
  match ialloc ⟨zeroed, metablocks, metablocks, 1⟩ 1 with
  | none => none
  | some (inum, S) =>
    if inum ≠ rootino then none
    else
      match iappend S inum (dirent inum [46]) with
      | none => none
      | some S => iappend S inum (dirent inum [46, 46])

/-- `main`, for these files; `none` if it stops with an error. -/
def mkfs (files : List HostFile) : Option State :=
  match makeRoot with
  | none => none
  | some S =>
    match addFiles S files with
    | none => none
    | some S =>
      match fixRoot S with
      | none => none
      | some S => balloc S

end Xv6.Mkfs
