import Mathlib.Tactic.Common

/-!
# Programs as trees of operations

Code that runs concurrently with other code is not a function on states: what it does
next may have to wait, and the state is not its own in between.  Such code is modelled
here as the tree of the operations it performs.  A node is an operation, its branches
are the answers the operation can have, and a leaf is the value the code returns.  What
an operation does, and when, is left to the machine that runs the tree.

* `Rules` --- a discipline: what must be known of an operation before it is performed,
  and how that knowledge moves with its answer.
* `Prog.Safe` --- the program keeps to the discipline whatever the answers are, and ends
  with a given postcondition.  It is computed from the tree, so `safe_bind` and its
  companions are equivalences and rewrite like a weakest precondition.
* `Prog.Safe.interp` --- if each replacement keeps to the lower discipline and moves the
  knowledge as the operation it replaces does, the replaced program keeps to it.
* `Prog.Must` --- whatever the answers are, an operation of a given kind is performed
  before the program ends; `Prog.Safe.must` gets it from a discipline that does not let a
  program end while something is known that only such an operation undoes.
-/

namespace Xv6

/-- A program that performs operations of `E`, with answers in `R e`, and returns `α`. -/
inductive Prog (E : Type) (R : E → Type) (α : Type) : Type where
  | ret (a : α)
  | vis (e : E) (k : R e → Prog E R α)

/-- A discipline for the operations of `E`, in terms of knowledge of type `G`. -/
structure Rules (E : Type) (R : E → Type) (G : Type) where
  /-- What must be known before the operation. -/
  pre : E → G → Prop
  /-- What is known after the operation has been answered. -/
  next : (e : E) → R e → G → G

namespace Prog

variable {E E' : Type} {R : E → Type} {R' : E' → Type} {α β G : Type}

/-- Run `p`, then `f` on what it returns. -/
def bind : Prog E R α → (α → Prog E R β) → Prog E R β
  | ret a, f => f a
  | vis e k, f => vis e fun r => (k r).bind f

instance : Monad (Prog E R) where
  pure := ret
  bind := bind

/-- The program that performs one operation and returns its answer. -/
def perform (e : E) : Prog E R (R e) := vis e ret

/-- Replace every operation by a program. -/
def interp (h : (e : E) → Prog E' R' (R e)) : Prog E R α → Prog E' R' α
  | ret a => ret a
  | vis e k => (h e).bind fun r => (k r).interp h

/-- Run `p` if a condition holds. -/
def when (c : Prop) [Decidable c] (p : Prog E R Unit) : Prog E R Unit := if c then p else ret ()

/-- Run `body` on each element of a list in turn. -/
def each {ι : Type} (body : ι → Prog E R Unit) : List ι → Prog E R Unit
  | [] => ret ()
  | i :: is => (body i).bind fun _ => each body is

/-! ## Keeping to a discipline -/

/-- Started with knowledge `g`, the program keeps to the rules whatever the answers are,
and where it returns `Q` holds of the value and of what is then known. -/
def Safe (𝓡 : Rules E R G) (Q : α → G → Prop) : Prog E R α → G → Prop
  | ret a, g => Q a g
  | vis e k, g => 𝓡.pre e g ∧ ∀ r, (k r).Safe 𝓡 Q (𝓡.next e r g)

variable {𝓡 : Rules E R G} {𝓡' : Rules E' R' G} {Q Q' : α → G → Prop} {g : G}

@[simp] theorem safe_ret (a : α) : (ret a : Prog E R α).Safe 𝓡 Q g ↔ Q a g := Iff.rfl

@[simp] theorem safe_pure (a : α) : (pure a : Prog E R α).Safe 𝓡 Q g ↔ Q a g := Iff.rfl

@[simp] theorem safe_vis (e : E) (k : R e → Prog E R α) :
    (vis e k).Safe 𝓡 Q g ↔ 𝓡.pre e g ∧ ∀ r, (k r).Safe 𝓡 Q (𝓡.next e r g) := Iff.rfl

theorem safe_bind' (p : Prog E R α) (f : α → Prog E R β) {Q : β → G → Prop} :
    (p.bind f).Safe 𝓡 Q g ↔ p.Safe 𝓡 (fun a g' => (f a).Safe 𝓡 Q g') g := by
  induction p generalizing g with
  | ret a => exact Iff.rfl
  | vis e k ih =>
    rw [bind, safe_vis, safe_vis]
    exact and_congr Iff.rfl (forall_congr' fun r => ih r)

@[simp] theorem safe_bind (p : Prog E R α) (f : α → Prog E R β) {Q : β → G → Prop} :
    (p >>= f).Safe 𝓡 Q g ↔ p.Safe 𝓡 (fun a g' => (f a).Safe 𝓡 Q g') g :=
  safe_bind' p f

@[simp] theorem safe_ite {c : Prop} [Decidable c] (p q : Prog E R α) :
    (if c then p else q).Safe 𝓡 Q g ↔ if c then p.Safe 𝓡 Q g else q.Safe 𝓡 Q g := by
  split <;> rfl

variable {p : Prog E R α}

theorem Safe.mono (h : p.Safe 𝓡 Q g) (hQ : ∀ a g', Q a g' → Q' a g') : p.Safe 𝓡 Q' g := by
  induction p generalizing g with
  | ret a => exact hQ a g h
  | vis e k ih => exact ⟨h.1, fun r => ih r (h.2 r)⟩

theorem safe_when {c : Prop} [Decidable c] {p : Prog E R Unit} {Q : Unit → G → Prop} :
    (Prog.when c p).Safe 𝓡 Q g ↔ (c → p.Safe 𝓡 Q g) ∧ (¬c → Q () g) := by
  unfold Prog.when
  split
  · rename_i hc
    exact ⟨fun h => ⟨fun _ => h, fun hn => absurd hc hn⟩, fun h => h.1 hc⟩
  · rename_i hc
    exact ⟨fun h => ⟨fun hp => absurd hp hc, fun _ => h⟩, fun h => h.2 hc⟩

theorem Safe.each {ι : Type} {b : ι → Prog E R Unit} {I : List ι → G → Prop}
    (hbody : ∀ i is g, I (i :: is) g → (b i).Safe 𝓡 (fun _ g' => I is g') g) :
    ∀ (is : List ι) {g : G}, I is g → (Prog.each b is).Safe 𝓡 (fun _ g' => I [] g') g
  | [], _, h => h
  | i :: is, g, h => by
    rw [Prog.each, safe_bind']
    exact (hbody i is g h).mono fun _ g' hg' => Safe.each hbody is hg'

/-- **Replacing operations.**  If the program for each operation keeps to the lower rules
and leaves the knowledge that the operation would leave, a program that keeps to the
upper rules keeps to the lower ones after replacement. -/
theorem Safe.interp {h : (e : E) → Prog E' R' (R e)}
    (hh : ∀ e g, 𝓡.pre e g → (h e).Safe 𝓡' (fun r g' => g' = 𝓡.next e r g) g) (hp : p.Safe 𝓡 Q g) :
    (p.interp h).Safe 𝓡' Q g := by
  induction p generalizing g with
  | ret a => exact hp
  | vis e k ih =>
    rw [Prog.interp, safe_bind']
    refine (hh e g hp.1).mono ?_
    rintro r g' rfl
    exact ih r (hp.2 r)

/-! ## Operations of one kind -/

/-- All operations that the program can come to are of kind `P`. -/
def Only (P : E → Prop) : Prog E R α → Prop
  | ret _ => True
  | vis e k => P e ∧ ∀ r, (k r).Only P

namespace Only

variable {P : E → Prop} {P' : E' → Prop}

theorem ret (a : α) : (Prog.ret a : Prog E R α).Only P := trivial

theorem perform {e : E} (h : P e) : (Prog.perform e : Prog E R (R e)).Only P :=
  ⟨h, fun _ => trivial⟩

theorem bind {f : α → Prog E R β} (hp : p.Only P) (hf : ∀ a, (f a).Only P) : (p >>= f).Only P := by
  induction p with
  | ret a => exact hf a
  | vis e k ih => exact ⟨hp.1, fun r => ih r (hp.2 r)⟩

theorem when {c : Prop} [Decidable c] {p : Prog E R Unit} (hp : p.Only P) :
    (Prog.when c p).Only P := by
  unfold Prog.when
  split
  · exact hp
  · exact ret ()

theorem each {ι : Type} {b : ι → Prog E R Unit} (hb : ∀ i, (b i).Only P) (is : List ι) :
    (Prog.each b is).Only P := by
  induction is with
  | nil => exact ret ()
  | cons i is ih => exact (hb i).bind fun _ => ih

theorem interp {h : (e : E) → Prog E' R' (R e)} (hh : ∀ e, (h e).Only P') (p : Prog E R α) :
    (p.interp h).Only P' := by
  induction p with
  | ret a => exact ret a
  | vis e k ih => exact (hh e).bind ih

theorem safe (hp : p.Only P) (hpre : ∀ e, P e → 𝓡.pre e g) (hnext : ∀ e r, P e → 𝓡.next e r g = g) :
    p.Safe 𝓡 (fun _ g' => g' = g) g := by
  induction p with
  | ret a => exact rfl
  | vis e k ih =>
    refine ⟨hpre e hp.1, fun r => ?_⟩
    rw [hnext e r hp.1]
    exact ih r (hp.2 r)

end Only

/-! ## Answers that cannot come -/

section Answers

variable {pre : E → G → Prop} {next : (e : E) → R e → G → Option G}

/-- Rules by which some answers are impossible: for these `next` is `none`.  The knowledge
`none` is that of a program that will not get there. -/
def rulesOfAnswers (pre : E → G → Prop) (next : (e : E) → R e → G → Option G) :
    Rules E R (Option G) where
  pre e g := ∀ h, g = some h → pre e h
  next e r g := g.bind (next e r)

/-- The program keeps to the rules from `g` on, as long as the answers are possible. -/
def SafeFrom (pre : E → G → Prop) (next : (e : E) → R e → G → Option G) (Q : α → G → Prop)
    (p : Prog E R α) (g : G) : Prop :=
  p.Safe (rulesOfAnswers pre next) (fun a o => ∀ h, o = some h → Q a h) (some g)

theorem safe_impossible {Q : α → G → Prop} (p : Prog E R α) :
    p.Safe (rulesOfAnswers pre next) (fun a o => ∀ h, o = some h → Q a h) none := by
  induction p with
  | ret a =>
    intro h hh
    cases hh
  | vis e k ih =>
    refine ⟨fun h hh => ?_, fun r => ih r⟩
    cases hh

@[simp] theorem safeFrom_ret {Q : α → G → Prop} (a : α) :
    (ret a : Prog E R α).SafeFrom pre next Q g ↔ Q a g := by
  simp [SafeFrom]

@[simp] theorem safeFrom_pure {Q : α → G → Prop} (a : α) :
    (pure a : Prog E R α).SafeFrom pre next Q g ↔ Q a g :=
  safeFrom_ret a

theorem safeFrom_vis {Q : α → G → Prop} (e : E) (k : R e → Prog E R α) :
    (vis e k).SafeFrom pre next Q g ↔
      pre e g ∧ ∀ r g', next e r g = some g' → (k r).SafeFrom pre next Q g' := by
  refine and_congr ⟨fun h => h g rfl, ?_⟩ (forall_congr' fun r => ⟨fun h g' hg' => ?_, fun h => ?_⟩)
  · rintro h _ ⟨⟩
    exact h
  · have hr := h
    rw [show (rulesOfAnswers pre next).next e r (some g) = some g' from hg'] at hr
    exact hr
  · cases hn : next e r g with
    | none =>
      rw [show (rulesOfAnswers pre next).next e r (some g) = none from hn]
      exact safe_impossible _
    | some g' =>
      rw [show (rulesOfAnswers pre next).next e r (some g) = some g' from hn]
      exact h g' hn

theorem safeFrom_bind' {Q : β → G → Prop} (p : Prog E R α) (f : α → Prog E R β) :
    (p.bind f).SafeFrom pre next Q g ↔
      p.SafeFrom pre next (fun a g' => (f a).SafeFrom pre next Q g') g := by
  rw [SafeFrom, safe_bind']
  refine ⟨fun h => h.mono ?_, fun h => h.mono ?_⟩
  · rintro a _ ha g' rfl
    exact ha
  · intro a o ha
    cases o with
    | none => exact safe_impossible _
    | some g' => exact ha g' rfl

theorem safeFrom_bind {Q : β → G → Prop} (p : Prog E R α) (f : α → Prog E R β) :
    (p >>= f).SafeFrom pre next Q g ↔
      p.SafeFrom pre next (fun a g' => (f a).SafeFrom pre next Q g') g :=
  safeFrom_bind' p f

end Answers

/-! ## What a program is bound to do -/

/-- Whatever the answers are, the program performs an operation of `P` before it returns
and before it performs an operation of `stop`. -/
def Must (P stop : E → Prop) : Prog E R α → Prop
  | ret _ => False
  | vis e k => P e ∨ ¬stop e ∧ ∀ r, (k r).Must P stop

/-- **What is owed is paid.**  If only operations of `P` undo what is owed, and the
discipline lets nobody return or stop who owes something, then one who owes something is
bound to perform an operation of `P`. -/
theorem Safe.must {P stop : E → Prop} {O : G → Prop}
    (hkeep : ∀ e g, 𝓡.pre e g → O g → ¬P e → ¬stop e ∧ ∀ r, O (𝓡.next e r g))
    (hend : ∀ a g, Q a g → ¬O g) (hp : p.Safe 𝓡 Q g) (hg : O g) : p.Must P stop := by
  induction p generalizing g with
  | ret a => exact hend a g hp hg
  | vis e k ih =>
    by_cases hP : P e
    · exact .inl hP
    · obtain ⟨hstop, hnext⟩ := hkeep e g hp.1 hg hP
      exact .inr ⟨hstop, fun r => ih r (hp.2 r) (hnext r)⟩

end Prog
end Xv6
