import Mathlib.Data.List.Nodup
import Mathlib.Tactic.Common

/-!
# Circular lists with one pointer

Nodes with a `next` pointer each.  `Leads next a xs z` says that the pointers lead from `a`
through `xs` to `z`, and `Circle next xs` that they lead through `xs` and back to where it
starts; a circle can be entered at any of its nodes (`circle_append`).  A change to the list
sets the pointers of a node or two, and `Leads.restart` says what becomes of the rest.

`follow` is the loop that goes from node to node until a test holds.  On a circle it finds
what a search through the list finds (`Leads.follow`).
-/

namespace Xv6

open List

variable {α : Type} {next next' : α → α} {a b p q z : α} {xs ys us vs : List α}

/-- The pointers lead from `a` through `xs` to `z`. -/
def Leads (next : α → α) : α → List α → α → Prop
  | a, [], z => next a = z
  | a, x :: xs, z => next a = x ∧ Leads next x xs z

theorem leads_append : Leads next a (xs ++ b :: ys) z ↔ Leads next a xs b ∧ Leads next b ys z := by
  induction xs generalizing a with
  | nil => exact Iff.rfl
  | cons x xs ih => simp only [cons_append, Leads, ih, and_assoc]

namespace Leads

theorem restart (h : Leads next a xs z) (hb : next' b = next a)
    (hxs : ∀ x ∈ xs, next' x = next x) : Leads next' b xs z := by
  induction xs generalizing a b with
  | nil => exact hb.trans h
  | cons x xs ih =>
    obtain ⟨hx, h⟩ := h
    exact ⟨hb.trans hx, ih h (hxs x (by simp)) fun y hy => hxs y (by simp [hy])⟩

theorem next_eq_head (h : Leads next a xs z) : next a = (xs ++ [z]).head (by simp) := by
  cases xs with
  | nil => exact h
  | cons x xs => exact h.1

theorem exists_prev (h : Leads next a xs z) (hb : b ∈ xs ++ [z]) : ∃ q ∈ a :: xs, next q = b := by
  induction xs generalizing a with
  | nil =>
    obtain rfl : b = z := by simpa using hb
    exact ⟨a, by simp, h⟩
  | cons x xs ih =>
    obtain ⟨hx, h⟩ := h
    rw [cons_append, mem_cons] at hb
    obtain rfl | hb := hb
    · exact ⟨a, by simp, hx⟩
    · obtain ⟨q, hq, hnext⟩ := ih h hb
      exact ⟨q, mem_cons_of_mem a hq, hnext⟩

end Leads

/-- The pointers lead through the list and back to its first node. -/
def Circle (next : α → α) : List α → Prop
  | [] => False
  | a :: xs => Leads next a xs a

/-- A circle has no beginning. -/
theorem circle_append : Circle next (us ++ p :: vs) ↔ Leads next p (vs ++ us) p := by
  cases us with
  | nil => rw [nil_append, append_nil]; exact Iff.rfl
  | cons a us =>
    rw [leads_append, and_comm, ← leads_append]
    exact Iff.rfl

theorem Leads.eq_nil_of_next (h : Leads next p xs p) (hnodup : (p :: xs).Nodup)
    (hsplit : p :: xs = us ++ q :: vs) (hq : next q = p) : vs = [] := by
  cases vs with
  | nil => rfl
  | cons c vs =>
    have hc : Circle next (us ++ q :: c :: vs) := hsplit ▸ h
    obtain rfl : c = p := (circle_append.mp hc).1.symm.trans hq
    have hp : c ∈ xs := by
      cases us with
      | nil | cons => rw [(List.cons.inj hsplit).2]; simp
    exact absurd hp (nodup_cons.mp hnodup).1

/-- Follow the pointers from `p` on, until `stop` holds; `none` if it has not after `n` nodes. -/
def follow (next : α → α) (stop : α → Bool) : ℕ → α → Option α
  | 0, _ => none
  | n + 1, p => if stop p then some p else follow next stop n (next p)

theorem Leads.follow (h : Leads next p xs z) {stop : α → Bool} (hs : ∃ q ∈ p :: xs, stop q = true)
    {n : ℕ} (hn : xs.length < n) : follow next stop n p = (p :: xs).find? stop := by
  induction xs generalizing p n with
  | nil =>
    obtain ⟨m, rfl⟩ : ∃ m, n = m + 1 := ⟨n - 1, by simp at hn; omega⟩
    obtain ⟨q, hq, hstop⟩ := hs
    obtain rfl : q = p := by simpa using hq
    simp [Xv6.follow, hstop]
  | cons x xs ih =>
    obtain ⟨m, rfl⟩ : ∃ m, n = m + 1 := ⟨n - 1, by simp at hn; omega⟩
    obtain ⟨hx, h⟩ := h
    rw [Xv6.follow]
    cases hp : stop p with
    | true => rw [if_pos rfl, find?_cons_of_pos hp]
    | false =>
      rw [if_neg (by simp), find?_cons_of_neg (by simp [hp]), hx]
      refine ih h ?_ (by simpa using hn)
      obtain ⟨q, hq, hstop⟩ := hs
      rw [mem_cons] at hq
      obtain rfl | hq := hq
      · rw [hp] at hstop
        cases hstop
      · exact ⟨q, hq, hstop⟩

end Xv6
