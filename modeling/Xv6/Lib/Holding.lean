import Xv6.Lib.Counting
import Mathlib.Data.Multiset.AddSub

/-!
# Who holds what

Locks and counters say that something is held, not by whom.  `Holding A H K` relates a
record of the holders, `H`, to what each agent thinks that it holds, `K`, when only the
agents of `A` are around: whoever is recorded is around, and each of them thinks it holds
exactly what is recorded for it, once.  `Tally A U K n` is the same for units of a
counter `n`.

* `Holding.take`, `Holding.give`, `Tally.take`, `Tally.give` --- one agent takes or gives.
* `Holding.change`, `Tally.change` --- agents come and go with empty hands.
-/

namespace Xv6

open Function

variable {σ ι : Type*} [DecidableEq σ] [DecidableEq ι]

/-- The record `H` of holders agrees with what the agents of `A` think that they hold. -/
structure Holding (A : σ → Prop) (H : ι → Option σ) (K : σ → Multiset ι) : Prop where
  holder : ∀ {i s}, H i = some s → A s
  count : ∀ {s}, A s → ∀ i, (K s).count i = if H i = some s then 1 else 0

namespace Holding

variable {A A' : σ → Prop} {H : ι → Option σ} {K K' : σ → Multiset ι} {s : σ} {i : ι}

theorem mem_iff (h : Holding A H K) (hs : A s) : i ∈ K s ↔ H i = some s := by
  rw [← Multiset.count_pos, h.count hs]
  split <;> simp_all

theorem mem (h : Holding A H K) (hi : H i = some s) : i ∈ K s :=
  (h.mem_iff (h.holder hi)).mpr hi

theorem eq_zero (h : Holding A H K) (hs : A s) (hno : ∀ i, H i ≠ some s) : K s = 0 := by
  refine Multiset.eq_zero_of_forall_notMem fun i hi => ?_
  exact hno i ((h.mem_iff hs).mp hi)

theorem take (h : Holding A H K) (hs : A s) (hi : H i = none) :
    Holding A (update H i (some s)) (update K s (i ::ₘ K s)) where
  holder {j u} hj := by
    by_cases hji : j = i
    · subst hji
      rw [update_self, Option.some.injEq] at hj
      exact hj ▸ hs
    · rw [update_of_ne hji] at hj
      exact h.holder hj
  count {u} hu j := by
    by_cases hus : u = s <;> by_cases hji : j = i
    · subst hus hji
      simp [h.count hs, hi]
    · subst hus
      simp [hji, h.count hs]
    · subst hji
      simp [hus, Ne.symm hus, h.count hu, hi]
    · simp [hus, hji, h.count hu]

theorem give (h : Holding A H K) (hs : A s) (hi : i ∈ K s) :
    Holding A (update H i none) (update K s ((K s).erase i)) where
  holder {j u} hj := by
    by_cases hji : j = i
    · subst hji
      simp at hj
    · rw [update_of_ne hji] at hj
      exact h.holder hj
  count {u} hu j := by
    have hHi := (h.mem_iff hs).mp hi
    by_cases hus : u = s <;> by_cases hji : j = i
    · subst hus hji
      simp [h.count hs, hHi]
    · subst hus
      simp [hji, h.count hs, Multiset.count_erase_of_ne hji]
    · subst hji
      simp [hus, h.count hu, hHi, Ne.symm hus]
    · simp [hus, hji, h.count hu]

theorem change (h : Holding A H K) (hK : ∀ u, A u → A' u → K' u = K u)
    (hcome : ∀ u, A' u → A u ∨ K' u = 0) (hgo : ∀ u, A u → A' u ∨ K u = 0) :
    Holding A' H K' where
  holder {j u} hj := by
    refine (hgo u (h.holder hj)).resolve_right fun hK => ?_
    have := h.mem hj
    simp [hK] at this
  count {u} hu j := by
    by_cases hA : A u
    · rw [hK u hA hu, h.count hA]
    · rw [(hcome u hu).resolve_left hA, if_neg fun hj => hA (h.holder hj)]
      rfl

end Holding

/-- The record `U` of units agrees with what the agents of `A` think that they have, and
`n` counts them. -/
structure Tally [Fintype σ] (A : σ → Prop) (U K : σ → ℕ) (n : ℤ) : Prop where
  holder : ∀ {s}, 0 < U s → A s
  count : ∀ {s}, A s → U s = K s
  total : n = (∑ s, U s : ℕ)

namespace Tally

variable [Fintype σ] {A A' : σ → Prop} {U K K' : σ → ℕ} {n : ℤ} {s : σ}

theorem set (h : Tally A U K n) (hs : A s) (f : ℕ → ℕ) {m : ℤ} (hm : m + U s = n + f (U s)) :
    Tally A (update U s (f (U s))) (update K s (f (K s))) m where
  holder {u} hu := by
    by_cases hus : u = s
    · exact hus ▸ hs
    · exact h.holder (by simpa [hus] using hu)
  count {u} hu := by
    by_cases hus : u = s
    · subst hus
      simp [h.count hs]
    · simp [hus, h.count hu]
  total := by
    have hsum := sum_update_add id U s (f (U s))
    have htotal := h.total
    simp only [id] at hsum
    omega

theorem take (h : Tally A U K n) (hs : A s) :
    Tally A (update U s (U s + 1)) (update K s (K s + 1)) (n + 1) :=
  h.set hs (· + 1) (by omega)

theorem give (h : Tally A U K n) (hs : A s) (hpos : 0 < K s) :
    Tally A (update U s (U s - 1)) (update K s (K s - 1)) (n - 1) := by
  have hcount := h.count hs
  exact h.set hs (· - 1) (by omega)

omit [DecidableEq σ] in
theorem change (h : Tally A U K n) (hK : ∀ u, A u → A' u → K' u = K u)
    (hcome : ∀ u, A' u → A u ∨ K' u = 0) (hgo : ∀ u, A u → A' u ∨ K u = 0) : Tally A' U K' n where
  holder {u} hu := by
    refine (hgo u (h.holder hu)).resolve_right fun hK => ?_
    rw [h.count (h.holder hu), hK] at hu
    exact lt_irrefl 0 hu
  count {u} hu := by
    by_cases hA : A u
    · rw [hK u hA hu, h.count hA]
    · rw [(hcome u hu).resolve_left hA]
      exact Nat.eq_zero_of_not_pos fun hpos => hA (h.holder hpos)
  total := h.total

end Tally
end Xv6
