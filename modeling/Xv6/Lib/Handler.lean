import Xv6.Lib.Prog

/-!
# Running a program alone

When nobody interferes, what each operation of a program answers is determined by a state
that only the program itself changes.  A `Handler` says how; with it a program has one
run, and what holds along that run is computed from the tree.

* `Handler.Along` --- every operation of the run is of a given kind and the run ends with
  a given postcondition; `along_bind` makes it a weakest precondition.
* `Handler.along_iff_trace` --- which is a statement about the trace.
-/

namespace Xv6

/-- What the operations of `E` answer, and what they do to a state of type `σ`. -/
structure Handler (E : Type) (R : E → Type) (σ : Type) where
  answer : (e : E) → σ → R e
  effect : E → σ → σ

namespace Handler

open Prog

variable {E : Type} {R : E → Type} {σ α β : Type} (H : Handler E R σ)

/-- The operations that the program performs. -/
def trace : Prog E R α → σ → List E
  | ret _, _ => []
  | vis e k, s => e :: trace (k (H.answer e s)) (H.effect e s)

/-- Every operation that the program performs is in `P`, and it ends with `Q`. -/
def Along (P : E → Prop) (Q : α → σ → Prop) : Prog E R α → σ → Prop
  | ret a, s => Q a s
  | vis e k, s => P e ∧ Along P Q (k (H.answer e s)) (H.effect e s)

variable {H} {P : E → Prop} {s : σ}

@[simp] theorem along_ret {Q : α → σ → Prop} (a : α) :
    H.Along P Q (ret a : Prog E R α) s ↔ Q a s := Iff.rfl

@[simp] theorem along_pure {Q : α → σ → Prop} (a : α) :
    H.Along P Q (pure a : Prog E R α) s ↔ Q a s := Iff.rfl

@[simp] theorem along_vis {Q : α → σ → Prop} (e : E) (k : R e → Prog E R α) :
    H.Along P Q (vis e k) s ↔ P e ∧ H.Along P Q (k (H.answer e s)) (H.effect e s) := Iff.rfl

theorem along_bind' {Q : β → σ → Prop} (p : Prog E R α) (f : α → Prog E R β) :
    H.Along P Q (p.bind f) s ↔ H.Along P (fun a s' => H.Along P Q (f a) s') p s := by
  induction p generalizing s with
  | ret a => exact Iff.rfl
  | vis e k ih =>
    rw [Prog.bind, along_vis, along_vis]
    exact and_congr Iff.rfl (ih _)

@[simp] theorem along_bind {Q : β → σ → Prop} (p : Prog E R α) (f : α → Prog E R β) :
    H.Along P Q (p >>= f) s ↔ H.Along P (fun a s' => H.Along P Q (f a) s') p s :=
  along_bind' p f

theorem along_iff_trace {p : Prog E R α} :
    H.Along P (fun _ _ => True) p s ↔ ∀ e ∈ H.trace p s, P e := by
  induction p generalizing s with
  | ret a => simp [trace]
  | vis e k ih => rw [along_vis, trace, List.forall_mem_cons, ih]

end Handler
end Xv6
