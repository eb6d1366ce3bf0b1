import Mathlib.Algebra.Order.Ring.Nat
import Mathlib.Tactic.Common

/-!
# The constants of the kernel

The `#define`s of `param.h`, `proc.h`, `fs.h` and `mmu.h` that the rest of the
development uses, and the layout numbers that `mkfs.c` starts from.
-/

namespace Xv6

/-! ## `param.h` and `proc.h` -/

/-- The number of process-table entries. -/
def nproc : ℕ := 64

/-- The number of thread slots of a process. -/
def nthread : ℕ := 16

/-- The number of descriptors of a process. -/
def nofile : ℕ := 16

/-- The size of a kernel stack, which is a page. -/
def kstacksize : ℕ := 4096

/-- The number of operations' worth of blocks any one file-system call may write. -/
def maxOpBlocks : ℕ := 10

/-- The most data sectors the on-disk log is meant to hold. -/
def logSize : ℕ := maxOpBlocks * 3

/-- The number of buffers of the cache. -/
def nbuf : ℕ := maxOpBlocks * 3

/-! ## `fs.h` -/

/-- The size of a disk block. -/
def bsize : ℕ := 512

/-- The length of a directory entry's name. -/
def dirsiz : ℕ := 14

/-- The inode number of the root directory. -/
def rootino : ℕ := 1

/-- The number of block addresses in an inode, not counting that of the indirect block. -/
def ndirect : ℕ := 12

/-- The number of block addresses in an indirect block. -/
def nindirect : ℕ := bsize / 4

/-- The most blocks a file can have. -/
def maxfile : ℕ := ndirect + nindirect

/-- The size of a `struct dinode`. -/
def dinodeSize : ℕ := 64

/-- Inodes per block. -/
def ipb : ℕ := bsize / dinodeSize

/-- The block that contains inode `i`. -/
def iblock (i : ℕ) : ℕ := i / ipb + 2

/-- Bitmap bits per block. -/
def bpb : ℕ := bsize * 8

/-! ## The layout numbers of `mkfs.c` -/

/-- The number of log blocks `mkfs` lays out. -/
def nlog : ℕ := logSize

/-- The size of the image, in blocks. -/
def fssize : ℕ := 1024

/-- The number of inodes. -/
def ninodes : ℕ := 200

/-- The number of data blocks. -/
def nblocks : ℕ := 995 - logSize

end Xv6
