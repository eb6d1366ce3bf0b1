import Xv6.Lib.Bytes
import Xv6.Param

/-!
# The log: its state, its header block, and `log_write`

`log.c` keeps one `struct log` in memory and one header block on disk.  Both hold
the same thing, a `struct logheader`: a count `n` and the first `n` entries of
`sector[LOGSIZE]`.  Here a header is the list of its first `n` sectors.  The header
block is the block of bytes the source casts to `struct logheader`, so that reading
it and writing it are the byte operations of `read_head` and `write_head`.

* `getHeader_putHeader` --- a header that fits `sector[LOGSIZE]` is read back.
-/

namespace Xv6

open List

/-- The contents of one disk sector. -/
abbrev Block := Bytes bsize

/-- The contents of a disk. -/
abbrev Disk := ℕ → Block

/-- The panics of `log.c`. -/
inductive LogPanic where
  /-- `"too big a transaction"` -/
  | tooBig
  /-- `"log_write outside of trans"` -/
  | outsideTrans
  /-- `"log.committing"` -/
  | committing
  deriving DecidableEq

/-- `struct log`, less its lock and device.  `lh` lists the first `n` entries of
`lh.sector`, so `lh.n` is its length. -/
structure Log where
  /-- The sector of the header block. -/
  start : ℕ
  /-- The number of sectors of the log region, the header included. -/
  size : ℕ
  /-- How many file-system calls are executing. -/
  outstanding : ℤ
  /-- Some `end_op` is in `commit()`. -/
  committing : Bool
  /-- The sectors logged since the last commit. -/
  lh : List UInt32

namespace Log

/-- The sectors of the log region, `[start, start + size)`. -/
def InRegion (l : Log) (s : ℕ) : Prop := l.start ≤ s ∧ s < l.start + l.size

instance (l : Log) (s : ℕ) : Decidable (l.InRegion s) := by
  unfold InRegion; infer_instance

/-- The first test of `log_write`: no room for one more sector. -/
def tooBig (l : Log) : Prop := logSize ≤ l.lh.length ∨ (l.size : ℤ) - 1 ≤ l.lh.length

instance (l : Log) : Decidable l.tooBig := by
  unfold tooBig; infer_instance

/-- The locked part of `log_write`: a sector that is already logged is absorbed, any
other one is appended. -/
def record (l : Log) (s : UInt32) : Log :=
  if s ∈ l.lh then l else { l with lh := l.lh ++ [s] }

@[simp] theorem record_start (l : Log) (s : UInt32) : (l.record s).start = l.start := by
  unfold record; split <;> rfl

@[simp] theorem record_size (l : Log) (s : UInt32) : (l.record s).size = l.size := by
  unfold record; split <;> rfl

@[simp] theorem record_outstanding (l : Log) (s : UInt32) :
    (l.record s).outstanding = l.outstanding := by
  unfold record; split <;> rfl

@[simp] theorem record_committing (l : Log) (s : UInt32) :
    (l.record s).committing = l.committing := by
  unfold record; split <;> rfl

theorem mem_lh_record (l : Log) (s t : UInt32) : t ∈ (l.record s).lh ↔ t ∈ l.lh ∨ t = s := by
  unfold record
  split
  · rename_i h
    refine ⟨Or.inl, ?_⟩
    rintro (ht | rfl)
    · exact ht
    · exact h
  · rw [mem_append, mem_singleton]

theorem nodup_lh_record {l : Log} (h : l.lh.Nodup) (s : UInt32) : (l.record s).lh.Nodup := by
  unfold record
  split
  · exact h
  · rename_i hs
    rw [nodup_append]
    refine ⟨h, pairwise_singleton _ s, ?_⟩
    intro a ha b hb
    rw [mem_singleton] at hb
    rintro rfl
    exact hs (hb ▸ ha)

theorem length_lh_record (l : Log) (s : UInt32) :
    (l.record s).lh.length = l.lh.length + if s ∈ l.lh then 0 else 1 := by
  unfold record
  split
  · rfl
  · rw [length_append, length_singleton]

end Log

/-! ## The header block -/

/-- The count of a header block, read as an `int`. -/
def headerN (b : Block) : ℤ :=
  if b.num 0 4 < 2 ^ 31 then b.num 0 4 else (b.num 0 4 : ℤ) - 2 ^ 32

/-- `read_head`: the sectors a header block lists. -/
def getHeader (b : Block) : List UInt32 :=
  (List.range (headerN b).toNat).map fun i => UInt32.ofNat (b.num (4 + 4 * i) 4)

/-- The loop of `write_head`, from entry `i` on. -/
def putSectors (b : Block) (i : ℕ) : List UInt32 → Block
  | [] => b
  | s :: rest => putSectors (b.setNum (4 + 4 * i) 4 s.toNat) (i + 1) rest

/-- `write_head`: store the count and the sectors into the header block. -/
def putHeader (b : Block) (l : List UInt32) : Block :=
  putSectors (b.setNum 0 4 l.length) 0 l

theorem num_putSectors_of_le :
    ∀ (l : List UInt32) (b : Block) (i off : ℕ), off + 4 ≤ 4 + 4 * i →
      (putSectors b i l).num off 4 = b.num off 4
  | [], _, _, _, _ => rfl
  | s :: l, b, i, off, h => by
    rw [putSectors, num_putSectors_of_le l _ (i + 1) off (by omega),
      Bytes.num_setNum_of_disjoint _ _ (Or.inl h)]

theorem num_putSectors :
    ∀ (l : List UInt32) (b : Block) (i j : ℕ) (hj : j < l.length), i + l.length ≤ logSize →
      (putSectors b i l).num (4 + 4 * (i + j)) 4 = l[j].toNat
  | s :: l, b, i, 0, _, hl => by
    have hfit : 4 + 4 * i + 4 ≤ bsize := by
      simp only [length_cons, logSize, maxOpBlocks] at hl
      simp only [bsize]
      omega
    rw [putSectors, show i + 0 = i from rfl, num_putSectors_of_le l _ (i + 1) _ (by omega),
      Bytes.num_setNum_same hfit]
    exact Nat.mod_eq_of_lt (UInt32.toNat_lt _)
  | s :: l, b, i, j + 1, hj, hl => by
    have hj' : j < l.length := Nat.lt_of_succ_lt_succ hj
    have hl' : i + 1 + l.length ≤ logSize := by
      rw [length_cons] at hl
      omega
    rw [putSectors, show i + (j + 1) = i + 1 + j by omega, num_putSectors l _ (i + 1) j hj' hl']
    rfl

theorem headerN_putHeader {l : List UInt32} (b : Block) (hl : l.length ≤ logSize) :
    headerN (putHeader b l) = l.length := by
  have hn : (putHeader b l).num 0 4 = l.length := by
    rw [putHeader, num_putSectors_of_le l _ 0 0 (by omega),
      Bytes.num_setNum_same (by simp only [bsize]; omega)]
    refine Nat.mod_eq_of_lt ?_
    simp only [logSize, maxOpBlocks] at hl
    omega
  rw [headerN, hn, if_pos]
  simp only [logSize, maxOpBlocks] at hl
  omega

theorem getHeader_putHeader {l : List UInt32} (b : Block) (hl : l.length ≤ logSize) :
    getHeader (putHeader b l) = l := by
  rw [getHeader, headerN_putHeader b hl, Int.toNat_natCast]
  apply ext_getElem
  · rw [length_map, length_range]
  · intro j h₁ h₂
    have hnum := num_putSectors l (b.setNum 0 4 l.length) 0 j h₂ (by omega)
    rw [zero_add] at hnum
    simp only [getElem_map, getElem_range, putHeader, hnum, UInt32.ofNat_toNat]

end Xv6
