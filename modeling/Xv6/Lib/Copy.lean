import Mathlib.Data.List.Range
import Mathlib.Logic.Function.Basic

/-!
# Copying inside a memory

A loop that copies inside one memory visits its indices in some order: for index `i` it stores
at `d i` what it finds at `s i`.  If the two ranges overlap, what it leaves depends on the
order: `run_read` is about orders in which nothing is overwritten before it has been read, and
`run_same` about those in which nothing is overwritten once it has been read.
-/

namespace Xv6.Copy

open Function List

variable {A β : Type*} [DecidableEq A] {d s : ℕ → A} {is : List ℕ} {mem : A → β} {a : A} {i : ℕ}

/-- Copy index by index, in the order of `is`. -/
def run (d s : ℕ → A) (is : List ℕ) (mem : A → β) : A → β :=
  is.foldl (fun mem i => update mem (d i) (mem (s i))) mem

theorem run_cons : run d s (i :: is) mem =
    run d s is (update mem (d i) (mem (s i))) := rfl

theorem run_frame (h : ∀ i ∈ is, a ≠ d i) : run d s is mem a = mem a := by
  induction is generalizing mem with
  | nil => rfl
  | cons j is ih =>
    rw [run_cons, ih fun i hi => h i (mem_cons_of_mem j hi)]
    exact update_of_ne (h j mem_cons_self) _ _

/-- Nothing is overwritten before it has been read. -/
theorem run_read (h : is.Pairwise fun j i => d j ≠ s i ∧ d j ≠ d i) (hi : i ∈ is) :
    run d s is mem (d i) = mem (s i) := by
  induction is generalizing mem with
  | nil => cases hi
  | cons j is ih =>
    rw [pairwise_cons] at h
    rw [run_cons]
    obtain rfl | hi := mem_cons.mp hi
    · rw [run_frame fun k hk => (h.1 k hk).2, update_self]
    · rw [ih h.2 hi, update_of_ne (h.1 i hi).1.symm]

/-- Nothing is overwritten once it has been read: both sides of each copy agree in the end. -/
theorem run_same (h : is.Pairwise fun i j => d j ≠ s i ∧ d j ≠ d i)
    (hne : ∀ i ∈ is, d i ≠ s i) (hi : i ∈ is) :
    run d s is mem (d i) = run d s is mem (s i) := by
  induction is generalizing mem with
  | nil => cases hi
  | cons j is ih =>
    rw [pairwise_cons] at h
    rw [run_cons]
    obtain rfl | hi := mem_cons.mp hi
    · rw [run_frame fun k hk => (h.1 k hk).2.symm, run_frame fun k hk => (h.1 k hk).1.symm,
        update_self, update_of_ne (hne i mem_cons_self).symm]
    · exact ih h.2 (fun k hk => hne k (mem_cons_of_mem j hk)) hi

theorem pairwise_range {n : ℕ} {R : ℕ → ℕ → Prop} (h : ∀ j k, j < k → k < n → R j k) :
    (List.range n).Pairwise R :=
  pairwise_lt_range.imp_of_mem fun _ hk hjk => h _ _ hjk (mem_range.mp hk)

end Xv6.Copy
