import Mathlib.Tactic.Common
import Mathlib.Tactic.Ring

/-!
# Little-endian numbers inside a block of bytes

The kernel reads and writes its on-disk structures by casting a buffer to a struct:
a field is a little-endian number at a fixed byte offset.  A block is a function
from its byte positions, `num b off k` is the number held by the `k` bytes at `off`,
and `setNum b off k w` stores the low `k` bytes of `w` there.

A struct inside a block is a shorter block: `slice` takes it out, `place` puts it in, and
`copy` is `memmove` of a list of bytes.

* `num_setNum_same` --- what was stored is read back, modulo `256 ^ k`.
* `num_setNum_of_disjoint` --- a store leaves every field it does not overlap alone.
* `slice_place_same`, `slice_place_of_disjoint` --- the same for structs.
-/

namespace Xv6

/-- A block of `n` bytes. -/
abbrev Bytes (n : ℕ) := Fin n → UInt8

namespace Bytes

variable {n : ℕ}

/-- Byte `i` of a block, and `0` past its end. -/
def get (b : Bytes n) (i : ℕ) : ℕ :=
  if h : i < n then (b ⟨i, h⟩).toNat else 0

/-- The little-endian number in the `k` bytes at `off`. -/
def num (b : Bytes n) (off : ℕ) : ℕ → ℕ
  | 0 => 0
  | k + 1 => b.get off + 256 * num b (off + 1) k

/-- Store the low `k` bytes of `w` at `off`. -/
def setNum (b : Bytes n) (off k w : ℕ) : Bytes n := fun j =>
  if off ≤ j.val ∧ j.val < off + k then UInt8.ofNat (w / 256 ^ (j.val - off)) else b j

/-- The block of zeroes. -/
def zero : Bytes n := fun _ => 0

theorem get_lt (b : Bytes n) (i : ℕ) : b.get i < 256 := by
  unfold get
  split
  · exact UInt8.toNat_lt _
  · omega

theorem num_lt (b : Bytes n) : ∀ (k off : ℕ), b.num off k < 256 ^ k
  | 0, _ => by simp [num]
  | k + 1, off => by
    have h1 := get_lt b off
    have h2 := num_lt b k (off + 1)
    rw [num, pow_succ]
    omega

theorem get_setNum_of_mem {b : Bytes n} {off k w i : ℕ} (hi : i < n) (h1 : off ≤ i)
    (h2 : i < off + k) : (b.setNum off k w).get i = w / 256 ^ (i - off) % 256 := by
  rw [get, dif_pos hi, setNum, if_pos ⟨h1, h2⟩, UInt8.toNat_ofNat']

theorem get_setNum_of_notMem {b : Bytes n} {off k w i : ℕ} (h : i < off ∨ off + k ≤ i) :
    (b.setNum off k w).get i = b.get i := by
  unfold get
  split
  · rw [setNum, if_neg (by simp only [not_and, not_lt]; omega)]
  · rfl

/-- Reading the tail of a stored field: the bytes from the `i`-th on hold the number
without its `i` low bytes. -/
theorem num_setNum_tail {b : Bytes n} {off w K : ℕ} (hn : off + K ≤ n) :
    ∀ (k i : ℕ), i + k ≤ K → (b.setNum off K w).num (off + i) k = w / 256 ^ i % 256 ^ k
  | 0, i, _ => by rw [num, pow_zero, Nat.mod_one]
  | k + 1, i, h => by
    rw [num, get_setNum_of_mem (by omega) (by omega) (by omega),
      show off + i + 1 = off + (i + 1) by omega, num_setNum_tail hn k (i + 1) (by omega),
      show off + i - off = i by omega, pow_succ 256 k, mul_comm (256 ^ k) 256, Nat.mod_mul,
      Nat.div_div_eq_div_mul, ← pow_succ]

theorem num_setNum_same {b : Bytes n} {off k w : ℕ} (hn : off + k ≤ n) :
    (b.setNum off k w).num off k = w % 256 ^ k := by
  have h := num_setNum_tail (b := b) (w := w) hn k 0 (by omega)
  rwa [add_zero, pow_zero, Nat.div_one] at h

theorem num_setNum_of_disjoint {b : Bytes n} {off k w : ℕ} :
    ∀ (k' off' : ℕ), off' + k' ≤ off ∨ off + k ≤ off' →
      (b.setNum off k w).num off' k' = b.num off' k'
  | 0, _, _ => by rw [num, num]
  | k' + 1, off', h => by
    rw [num, num, get_setNum_of_notMem (by omega), num_setNum_of_disjoint k' (off' + 1) (by omega)]

theorem get_zero (i : ℕ) : (zero : Bytes n).get i = 0 := by
  unfold get zero
  split <;> rfl

theorem num_zero : ∀ (k off : ℕ), (zero : Bytes n).num off k = 0
  | 0, _ => rfl
  | k + 1, off => by rw [num, get_zero, num_zero k (off + 1)]

/-! ## Structs and lists of bytes inside a block -/

/-- Byte `i` of a block, and `0` past its end. -/
def byte (b : Bytes n) (i : ℕ) : UInt8 :=
  if h : i < n then b ⟨i, h⟩ else 0

/-- The `m` bytes at `off`. -/
def slice (b : Bytes n) (off m : ℕ) : Bytes m := fun j => b.byte (off + j)

/-- Put `x` at `off`. -/
def place {m : ℕ} (b : Bytes n) (off : ℕ) (x : Bytes m) : Bytes n := fun j =>
  if off ≤ j.val ∧ j.val < off + m then x.byte (j.val - off) else b j

/-- Copy a list of bytes to `off`. -/
def copy (b : Bytes n) (off : ℕ) (l : List UInt8) : Bytes n := fun j =>
  if off ≤ j.val ∧ j.val < off + l.length then l[j.val - off]?.getD 0 else b j

variable {m : ℕ} {b : Bytes n} {x : Bytes m} {off i : ℕ} {l : List UInt8}

theorem byte_of_lt (hi : i < n) : b.byte i = b ⟨i, hi⟩ := dif_pos hi

theorem get_eq_toNat_byte (b : Bytes n) (i : ℕ) : b.get i = (b.byte i).toNat := by
  unfold get byte
  split <;> rfl

theorem num_congr {b' : Bytes m} :
    ∀ {k off off' : ℕ}, (∀ j < k, b.byte (off + j) = b'.byte (off' + j)) →
      b.num off k = b'.num off' k
  | 0, _, _, _ => rfl
  | k + 1, off, off', h => by
    have h0 := h 0 (by omega)
    rw [num, num, get_eq_toNat_byte, get_eq_toNat_byte, show b.byte off = b'.byte off' from h0]
    congr 2
    refine num_congr fun j hj => ?_
    rw [show off + 1 + j = off + (j + 1) by omega, show off' + 1 + j = off' + (j + 1) by omega]
    exact h (j + 1) (by omega)

theorem byte_slice (hi : i < m) : (b.slice off m).byte i = b.byte (off + i) := byte_of_lt hi

theorem num_slice {k o : ℕ} (hk : o + k ≤ m) : (b.slice off m).num o k = b.num (off + o) k := by
  refine num_congr fun j hj => ?_
  rw [byte_slice (by omega), add_assoc]

theorem byte_place_of_mem (hn : i < n) (h1 : off ≤ i) (h2 : i < off + m) :
    (b.place off x).byte i = x.byte (i - off) := by
  rw [byte_of_lt hn, place, if_pos ⟨h1, h2⟩]

theorem byte_place_of_notMem (h : i < off ∨ off + m ≤ i) : (b.place off x).byte i = b.byte i := by
  unfold byte
  split
  · rw [place, if_neg (by simp only [not_and, not_lt]; omega)]
  · rfl

theorem slice_place_same (hn : off + m ≤ n) : (b.place off x).slice off m = x := by
  funext j
  rw [slice, byte_place_of_mem (by omega) (by omega) (by omega), Nat.add_sub_cancel_left,
    byte_of_lt j.isLt]

theorem slice_place_of_disjoint {o k : ℕ} (h : o + k ≤ off ∨ off + m ≤ o) :
    (b.place off x).slice o k = b.slice o k := by
  funext j
  rw [slice, slice, byte_place_of_notMem (by omega)]

theorem byte_copy_of_mem (hn : i < n) (h1 : off ≤ i) (h2 : i < off + l.length) :
    (b.copy off l).byte i = l[i - off]?.getD 0 := by
  rw [byte_of_lt hn, copy, if_pos ⟨h1, h2⟩]

theorem byte_copy_of_notMem (h : i < off ∨ off + l.length ≤ i) : (b.copy off l).byte i = b.byte i := by
  unfold byte
  split
  · rw [copy, if_neg (by simp only [not_and, not_lt]; omega)]
  · rfl

end Bytes
end Xv6
