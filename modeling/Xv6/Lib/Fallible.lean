import Mathlib.Data.List.Basic

/-!
# Programs that may fail

How a sequence of fallible steps comes to its end: each of its steps has succeeded, or a first one
has failed.
-/

namespace Xv6.Fallible

variable {ε α β : Type} {e : ε} {x : Except ε α} {f : α → Except ε β}

theorem bind_eq_ok {b : β} : x >>= f = .ok b ↔ ∃ a, x = .ok a ∧ f a = .ok b := by
  cases x <;> simp [bind, Except.bind]

theorem bind_eq_error :
    x >>= f = .error e ↔ x = .error e ∨ ∃ a, x = .ok a ∧ f a = .error e := by
  cases x <;> simp [bind, Except.bind]

/-- A fold stops where one of its steps does. -/
theorem foldlM_eq_error {f : β → α → Except ε β} {cs : List α} {i : β} :
    cs.foldlM f i = .error e ↔
      ∃ cs₁ c cs₂ j, cs = cs₁ ++ c :: cs₂ ∧ cs₁.foldlM f i = .ok j ∧ f j c = .error e := by
  induction cs generalizing i with
  | nil => exact ⟨nofun, fun ⟨_, _, _, _, h, _⟩ => by simp at h⟩
  | cons c cs ih =>
    rw [List.foldlM_cons, bind_eq_error]
    constructor
    · rintro (h | ⟨j, hj, h⟩)
      · exact ⟨[], c, cs, i, rfl, rfl, h⟩
      · obtain ⟨cs₁, c', cs₂, k, rfl, hk, he⟩ := ih.mp h
        exact ⟨c :: cs₁, c', cs₂, k, rfl, bind_eq_ok.mpr ⟨j, hj, hk⟩, he⟩
    · rintro ⟨cs₁, c', cs₂, k, heq, hk, he⟩
      cases cs₁ with
      | nil =>
        obtain ⟨rfl, rfl⟩ := List.cons.inj heq
        cases hk
        exact .inl he
      | cons e cs₁ =>
        obtain ⟨rfl, rfl⟩ := List.cons.inj heq
        obtain ⟨j, hj, hk⟩ := bind_eq_ok.mp hk
        exact .inr ⟨j, hj, ih.mpr ⟨cs₁, c', cs₂, k, rfl, hk, he⟩⟩

end Xv6.Fallible
