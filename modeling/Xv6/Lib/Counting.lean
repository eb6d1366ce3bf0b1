import Mathlib.Algebra.BigOperators.Fin
import Mathlib.Algebra.Order.BigOperators.Group.Finset
import Mathlib.Tactic.Common

/-!
# Counting over the threads of a system

An invariant of a system of threads often says that some number in the shared state is
the sum, over all threads, of what each of them contributes.  A step changes the place
of one thread, so all that is ever needed is how such a sum moves when one summand does.
-/

namespace Xv6

open Function Finset

variable {ι : Type*} [Fintype ι] [DecidableEq ι] {β : Type*}

/-- **Moving one thread.**  Its old contribution goes, its new one comes. -/
theorem sum_update_add (g : β → ℕ) (f : ι → β) (t : ι) (b : β) :
    ∑ i, g (update f t b i) + g (f t) = ∑ i, g (f i) + g b := by
  have hcomp : ∀ i, g (update f t b i) = update (fun j => g (f j)) t (g b) i := by
    intro i
    by_cases h : i = t
    · subst h
      rw [update_self, update_self]
    · rw [update_of_ne h, update_of_ne h]
  rw [Finset.sum_congr rfl fun i _ => hcomp i, Finset.sum_update_of_mem (mem_univ t),
    ← Finset.sum_sdiff (Finset.subset_univ {t}), Finset.sum_singleton]
  omega

omit [DecidableEq ι] in
theorem eq_zero_of_sum_eq_zero {g : β → ℕ} {f : ι → β} (h : ∑ i, g (f i) = 0) (t : ι) :
    g (f t) = 0 :=
  (Finset.sum_eq_zero_iff.mp h) t (mem_univ t)

omit [DecidableEq ι] in
theorem le_sum (g : β → ℕ) (f : ι → β) (t : ι) : g (f t) ≤ ∑ i, g (f i) :=
  Finset.single_le_sum (f := fun i => g (f i)) (fun _ _ => Nat.zero_le _) (mem_univ t)

end Xv6
