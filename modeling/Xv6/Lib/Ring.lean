import Mathlib.Tactic.Common
import Mathlib.Logic.Function.Basic
import Mathlib.Algebra.Order.Ring.Nat

/-!
# Circular buffers with free-running counters

A buffer of `N` cells that is filled at `nwrite % N` and emptied at `nread % N`, where the
two counters only ever go up and wrap around at `2 ^ 32`.  Nothing says how many elements
are in the buffer but the difference of the counters, and that works because `N` divides
`2 ^ 32`: the cell of a counter does not depend on how often it has wrapped.

* `Ring.contents_push`, `Ring.contents_pop` --- the buffer is a queue.
* `Ring.contents_unpush` --- what was stored last can be taken back.
* `Ring.isFull_iff`, `Ring.isEmpty_iff` --- what equality of counters says.
-/

namespace Xv6

open Function List

/-- A circular buffer. -/
structure Ring (N : ℕ) (α : Type) where
  data : Fin N → α
  nread : UInt32
  nwrite : UInt32

namespace Ring

variable {N : ℕ} {α : Type} [NeZero N]

/-- The cell of a counter. -/
def cell (N : ℕ) [NeZero N] (c : UInt32) : Fin N := ⟨c.toNat % N, Nat.mod_lt _ (NeZero.pos N)⟩

/-- Store an element. -/
def push (r : Ring N α) (a : α) : Ring N α :=
  { r with
    data := update r.data (cell N r.nwrite) a
    nwrite := r.nwrite + 1 }

/-- The element that is taken next. -/
def front (r : Ring N α) : α := r.data (cell N r.nread)

/-- Take an element. -/
def pop (r : Ring N α) : Ring N α := { r with nread := r.nread + 1 }

/-- The element that was stored last. -/
def back (r : Ring N α) : α := r.data (cell N (r.nwrite - 1))

/-- Take back the element that was stored last. -/
def unpush (r : Ring N α) : Ring N α := { r with nwrite := r.nwrite - 1 }

/-- The buffer up to another counter. -/
def upTo (r : Ring N α) (w : UInt32) : Ring N α := { r with nwrite := w }

/-- `nwrite == nread + N` -/
def isFull (r : Ring N α) : Bool := r.nwrite == r.nread + UInt32.ofNat N

/-- `nread == nwrite` -/
def isEmpty (r : Ring N α) : Bool := r.nread == r.nwrite

/-- The number of elements. -/
def length (r : Ring N α) : ℕ := (r.nwrite - r.nread).toNat

/-- The elements, oldest first. -/
def contents (r : Ring N α) : List α :=
  (List.range r.length).map fun k => r.data (cell N (r.nread + UInt32.ofNat k))

/-! ## Counters -/

omit [NeZero N] in
theorem nwrite_eq (r : Ring N α) : r.nwrite = r.nread + UInt32.ofNat r.length := by
  rw [length, UInt32.ofNat_toNat, UInt32.add_comm, UInt32.sub_add_cancel]

omit [NeZero N] in
theorem isEmpty_iff (r : Ring N α) : r.isEmpty = true ↔ r.length = 0 := by
  rw [isEmpty, beq_iff_eq, length]
  constructor
  · intro h
    rw [h, UInt32.sub_self]
    rfl
  · intro h
    have h0 : r.nwrite - r.nread = 0 := UInt32.toNat_inj.mp h
    rw [UInt32.sub_eq_iff_eq_add, UInt32.zero_add] at h0
    exact h0.symm

omit [NeZero N] in
theorem isFull_iff (hN : N < 2 ^ 32) (r : Ring N α) : r.isFull = true ↔ r.length = N := by
  rw [isFull, beq_iff_eq, length]
  constructor
  · intro h
    rw [h, UInt32.add_comm, UInt32.add_sub_cancel, UInt32.toNat_ofNat', Nat.mod_eq_of_lt hN]
  · intro h
    have hd : r.nwrite - r.nread = UInt32.ofNat N :=
      UInt32.ofNat_toNat.symm.trans (congrArg UInt32.ofNat h)
    rw [UInt32.sub_eq_iff_eq_add] at hd
    rw [hd, UInt32.add_comm]

theorem cell_add (hN : N ∣ 2 ^ 32) (c : UInt32) (k : ℕ) :
    (cell N (c + UInt32.ofNat k)).val = (c.toNat + k) % N := by
  rw [cell]
  dsimp only
  rw [UInt32.toNat_add, UInt32.toNat_ofNat', Nat.add_mod_mod, Nat.mod_mod_of_dvd _ hN]

theorem length_push (r : Ring N α) (a : α) (h : r.length + 1 < 2 ^ 32) :
    (r.push a).length = r.length + 1 := by
  have hw : r.nwrite + 1 - r.nread = r.nwrite - r.nread + 1 := by
    rw [UInt32.sub_eq_iff_eq_add, UInt32.add_assoc, UInt32.add_comm 1, ← UInt32.add_assoc,
      UInt32.sub_add_cancel]
  unfold length push at *
  rw [hw, UInt32.toNat_add]
  exact Nat.mod_eq_of_lt h

omit [NeZero N] in
theorem length_pop (r : Ring N α) (h : 0 < r.length) : r.pop.length = r.length - 1 := by
  have hw : r.nwrite - (r.nread + 1) = r.nwrite - r.nread - 1 := by
    rw [UInt32.sub_eq_iff_eq_add, UInt32.add_comm r.nread, ← UInt32.add_assoc,
      UInt32.sub_add_cancel, UInt32.sub_add_cancel]
  unfold length pop at *
  have hle : 1 ≤ r.nwrite - r.nread := UInt32.le_iff_toNat_le.mpr h
  rw [hw, UInt32.toNat_sub_of_le _ _ hle]
  rfl

/-! ## The queue -/

@[simp] theorem length_contents (r : Ring N α) : r.contents.length = r.length := by
  simp [contents]

theorem cell_ne_nwrite (hN : N ∣ 2 ^ 32) (r : Ring N α) (h : r.length < N) {k : ℕ}
    (hk : k < r.length) : cell N (r.nread + UInt32.ofNat k) ≠ cell N r.nwrite := by
  intro hc
  have hval := congrArg Fin.val hc
  rw [r.nwrite_eq, cell_add hN, cell_add hN] at hval
  have h1 : (r.nread.toNat + r.length - (r.nread.toNat + k)) % N = 0 :=
    Nat.sub_mod_eq_zero_of_mod_eq hval.symm
  rw [Nat.add_sub_add_left, Nat.mod_eq_of_lt (by omega)] at h1
  omega

theorem contents_push (hN : N ∣ 2 ^ 32) (hlt : N < 2 ^ 32) (r : Ring N α) (a : α)
    (h : r.length < N) : (r.push a).contents = r.contents ++ [a] := by
  unfold contents
  rw [length_push r a (by omega), range_succ, map_append]
  congr 1
  · refine map_congr_left fun k hk => ?_
    exact update_of_ne (r.cell_ne_nwrite hN h (mem_range.mp hk)) _ _
  · rw [map_singleton]
    show [update r.data (cell N r.nwrite) a (cell N (r.nread + UInt32.ofNat r.length))] = [a]
    rw [← r.nwrite_eq, update_self]

theorem contents_pop (r : Ring N α) (h : 0 < r.length) : r.contents = r.front :: r.pop.contents := by
  have hlen : r.length = r.pop.length + 1 := by
    rw [r.length_pop h]
    omega
  unfold contents
  rw [hlen, range_succ_eq_map, map_cons, map_map]
  congr 1
  · rw [front, show UInt32.ofNat 0 = 0 from rfl, UInt32.add_zero]
  · refine map_congr_left fun k _ => ?_
    show r.data (cell N (r.nread + UInt32.ofNat (k + 1))) = r.data (cell N (r.nread + 1 + UInt32.ofNat k))
    rw [UInt32.add_assoc, UInt32.add_comm 1, UInt32.ofNat_add]
    rfl

omit [NeZero N] in
theorem length_unpush (r : Ring N α) (h : 0 < r.length) : r.unpush.length = r.length - 1 := by
  have hw : r.nwrite - 1 - r.nread = r.nwrite - r.nread - 1 := by grind
  unfold length unpush at *
  have hle : 1 ≤ r.nwrite - r.nread := UInt32.le_iff_toNat_le.mpr h
  rw [hw, UInt32.toNat_sub_of_le _ _ hle]
  rfl

theorem contents_unpush (r : Ring N α) (h : 0 < r.length) :
    r.contents = r.unpush.contents ++ [r.back] := by
  have hlen : r.length = r.unpush.length + 1 := by
    rw [r.length_unpush h]
    omega
  have hback : r.nread + UInt32.ofNat r.unpush.length = r.nwrite - 1 := r.unpush.nwrite_eq.symm
  unfold contents
  rw [hlen, range_succ, map_append, map_singleton, hback]
  rfl

theorem contents_upTo (r : Ring N α) {w : UInt32} (h : (r.upTo w).length ≤ r.length) :
    (r.upTo w).contents = r.contents.take (r.upTo w).length := by
  unfold contents
  rw [← map_take, take_range, Nat.min_eq_left h]
  rfl

omit [NeZero N] in
theorem length_upTo_eq_iff (r : Ring N α) {w : UInt32} :
    (r.upTo w).length = r.length ↔ r.nwrite = w := by
  constructor
  · intro h
    have hw := (r.upTo w).nwrite_eq
    rw [h] at hw
    exact r.nwrite_eq.trans hw.symm
  · rintro rfl
    rfl

end Ring
end Xv6
