import Mathlib.Algebra.Order.Ring.Nat
import Mathlib.Data.List.Nodup
import Mathlib.Data.List.Range
import Mathlib.Tactic.Common

/-!
# Spans of addresses

A span is `len` bytes of memory from the address `lo` on.  A list of spans stands for the list
of all their bytes: that this has no duplicates says that the spans are disjoint, and that the
lists of two lists of spans are permutations of each other that they divide the same memory.
-/

namespace Xv6

open List

/-- `len` bytes from `lo` on. -/
structure Span where
  lo : ℕ
  len : ℕ
  deriving DecidableEq

namespace Span

/-- The addresses of its bytes. -/
def bytes (s : Span) : List ℕ := List.range' s.lo s.len

/-- The bytes of several spans. -/
def bytesAll (ss : List Span) : List ℕ := ss.flatMap bytes

variable {s t : Span} {ss ts : List Span} {x : ℕ}

@[simp] theorem mem_bytes : x ∈ s.bytes ↔ s.lo ≤ x ∧ x < s.lo + s.len := by
  rw [bytes, mem_range'_1]

@[simp] theorem length_bytes : s.bytes.length = s.len := length_range' ..

theorem bytes_eq_nil {lo : ℕ} : bytes ⟨lo, 0⟩ = [] := rfl

theorem bytes_append (h : s.lo + s.len = t.lo) :
    s.bytes ++ t.bytes = bytes ⟨s.lo, s.len + t.len⟩ := by
  simp [bytes, ← h]

@[simp] theorem bytesAll_nil : bytesAll [] = [] := rfl

@[simp] theorem bytesAll_cons : bytesAll (s :: ss) = s.bytes ++ bytesAll ss := rfl

@[simp] theorem bytesAll_append : bytesAll (ss ++ ts) = bytesAll ss ++ bytesAll ts :=
  flatMap_append

theorem mem_bytesAll : x ∈ bytesAll ss ↔ ∃ s ∈ ss, s.lo ≤ x ∧ x < s.lo + s.len := by
  simp [bytesAll]

theorem length_bytesAll : (bytesAll ss).length = (ss.map len).sum := by
  simp [bytesAll, length_flatMap]

theorem mul_length_le {n : ℕ} (h : ∀ s ∈ ss, n ≤ s.len) : n * ss.length ≤ (bytesAll ss).length := by
  induction ss with
  | nil => simp
  | cons s ss ih =>
    have hs := h s (by simp)
    have hss := ih fun t ht => h t (by simp [ht])
    rw [length_cons, bytesAll_cons, length_append, length_bytes, Nat.mul_succ]
    omega

theorem nodup_bytesAll : (bytesAll ss).Nodup ↔ ss.Pairwise fun s t => s.bytes.Disjoint t.bytes := by
  have hnodup : ∀ s ∈ ss, s.bytes.Nodup := fun s _ => nodup_range' ..
  rw [bytesAll, nodup_flatMap, and_iff_right hnodup]

theorem disjoint_symm (h : s.bytes.Disjoint t.bytes) : t.bytes.Disjoint s.bytes :=
  fun _ ht hs => h hs ht

instance : Std.Symm fun s t : Span => s.bytes.Disjoint t.bytes := ⟨fun _ _ => disjoint_symm⟩

theorem apart_of_disjoint (h : s.bytes.Disjoint t.bytes) (hs : 0 < s.len) (ht : 0 < t.len) :
    s.lo + s.len ≤ t.lo ∨ t.lo + t.len ≤ s.lo := by
  by_contra hc
  have hmem := @h (max s.lo t.lo)
  simp only [mem_bytes] at hmem
  exact hmem (by omega) (by omega)

end Span
end Xv6
