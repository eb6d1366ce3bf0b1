import Mathlib.Data.List.Nodup
import Mathlib.Logic.Function.Basic
import Mathlib.Tactic.Common

/-!
# Circular doubly linked lists

Nodes with a `next` and a `prev` pointer each, one of which is the head of the list.  The
pointers are two functions, and storing into a field is an update; `unlink` and `insertAfter`
are the usual sequences of such stores.

`Path L a xs z` says that `next` leads from `a` through `xs` to `z`, and that `prev` leads
back; `Circ L h xs` that the list of head `h` consists of `xs`, each of them once.  What the
operations do is said in terms of `xs`, and a proof about them looks at the few links that
change: `Path.congr` is for all others, and `path_append` cuts a path in two.

* `Circ.insertAfter`, `Circ.unlink`, `Circ.moveFront` --- what the operations do.
* `Circ.search_next`, `Circ.search_prev` --- a loop that follows the pointers until it is back
  at the head finds what a search through `xs` finds, from the one end or from the other.
-/

namespace Xv6

open Function List

/-- The pointers of the nodes. -/
structure Links (α : Type) where
  next : α → α
  prev : α → α

namespace Links

variable {α : Type} [DecidableEq α]

/-- Store into `a->next`. -/
def setNext (L : Links α) (a b : α) : Links α := { L with next := update L.next a b }

/-- Store into `a->prev`. -/
def setPrev (L : Links α) (a b : α) : Links α := { L with prev := update L.prev a b }

/-- `b->next->prev = b->prev; b->prev->next = b->next` -/
def unlink (L : Links α) (b : α) : Links α :=
  let L := L.setPrev (L.next b) (L.prev b)
  L.setNext (L.prev b) (L.next b)

/-- `b->next = h->next; b->prev = h; h->next->prev = b; h->next = b` -/
def insertAfter (L : Links α) (h b : α) : Links α :=
  let L := L.setNext b (L.next h)
  let L := L.setPrev b h
  let L := L.setPrev (L.next h) b
  L.setNext h b

omit [DecidableEq α] in
/-- The pointers, seen from the other end. -/
def flip (L : Links α) : Links α := ⟨L.prev, L.next⟩

end Links

variable {α : Type} {L L' : Links α} {a b h z : α} {xs ys : List α}

/-- The pointers lead from `a` through `xs` to `z`, and back. -/
def Path (L : Links α) : α → List α → α → Prop
  | a, [], z => L.next a = z ∧ L.prev z = a
  | a, x :: xs, z => (L.next a = x ∧ L.prev x = a) ∧ Path L x xs z

/-- The circular list of head `h` consists of `xs`. -/
structure Circ (L : Links α) (h : α) (xs : List α) : Prop where
  nodup : (h :: xs).Nodup
  path : Path L h xs h

theorem path_append : Path L a (xs ++ b :: ys) z ↔ Path L a xs b ∧ Path L b ys z := by
  induction xs generalizing a with
  | nil => exact Iff.rfl
  | cons x xs ih =>
    simp only [cons_append, Path, ih, and_assoc]

theorem Path.first (hp : Path L a xs z) :
    L.next a = (xs ++ [z]).head (by simp) ∧ L.prev ((xs ++ [z]).head (by simp)) = a := by
  cases xs with
  | nil => exact hp
  | cons x xs => exact hp.1

theorem Path.congr (hp : Path L a xs z) (hn : ∀ y ∈ a :: xs, L'.next y = L.next y)
    (hv : ∀ y ∈ xs ++ [z], L'.prev y = L.prev y) : Path L' a xs z := by
  induction xs generalizing a with
  | nil =>
    obtain ⟨hnext, hprev⟩ := hp
    exact ⟨(hn a (by simp)).trans hnext, (hv z (by simp)).trans hprev⟩
  | cons x xs ih =>
    obtain ⟨⟨hnext, hprev⟩, hp⟩ := hp
    refine ⟨⟨(hn a (by simp)).trans hnext, (hv x (by simp)).trans hprev⟩, ih hp ?_ ?_⟩
    · intro y hy
      exact hn y (mem_cons_of_mem a hy)
    · intro y hy
      exact hv y (mem_cons_of_mem x hy)

theorem Path.flip (hp : Path L a xs z) : Path L.flip z xs.reverse a := by
  induction xs generalizing a with
  | nil => exact ⟨hp.2, hp.1⟩
  | cons x xs ih =>
    rw [reverse_cons, path_append]
    exact ⟨ih hp.2, hp.1.2, hp.1.1⟩

theorem Path.exists_last (hp : Path L a xs z) :
    ∃ y, y ∈ a :: xs ∧ L.prev z = y ∧ L.next y = z ∧
      (y = a ∧ xs = [] ∨ ∃ ws, xs = ws ++ [y] ∧ Path L a ws y) := by
  rcases eq_nil_or_concat xs with rfl | ⟨ws, y, rfl⟩
  · exact ⟨a, by simp, hp.2, hp.1, .inl ⟨rfl, rfl⟩⟩
  · rw [concat_eq_append] at hp ⊢
    obtain ⟨hws, hlast⟩ := path_append.mp hp
    exact ⟨y, by simp, hlast.2, hlast.1, .inr ⟨ws, rfl, hws⟩⟩

namespace Circ

theorem head_notMem (hc : Circ L h xs) : h ∉ xs := (nodup_cons.mp hc.nodup).1

theorem flip (hc : Circ L h xs) : Circ L.flip h xs.reverse := by
  refine ⟨?_, hc.path.flip⟩
  have hnd := nodup_cons.mp hc.nodup
  refine nodup_cons.mpr ⟨?_, nodup_reverse.mpr hnd.2⟩
  simpa using hnd.1

variable [DecidableEq α]

theorem nil (L : Links α) (h : α) : Circ ((L.setPrev h h).setNext h h) h [] :=
  ⟨nodup_singleton h, update_self _ _ _, update_self _ _ _⟩

theorem insertAfter (hc : Circ L h xs) (hb : b ∉ h :: xs) : Circ (L.insertAfter h b) h (b :: xs) := by
  have hbh : b ≠ h := fun he => hb (by simp [he])
  have hbxs : b ∉ xs := fun hm => hb (by simp [hm])
  have hnd := nodup_cons.mp hc.nodup
  refine ⟨?_, ⟨?_, ?_⟩, ?_⟩
  · simp only [nodup_cons, mem_cons, not_or]
    exact ⟨⟨hbh.symm, hnd.1⟩, hbxs, hnd.2⟩
  · simp [Links.insertAfter, Links.setNext, Links.setPrev]
  · obtain ⟨hfirst, -⟩ := hc.path.first
    have hne : b ≠ L.next h := by
      rw [hfirst]
      intro he
      have hm := head_mem (l := xs ++ [h]) (by simp)
      rw [← he] at hm
      simp only [mem_append, mem_singleton] at hm
      exact hm.elim hbxs hbh
    simp [Links.insertAfter, Links.setNext, Links.setPrev, hbh.symm, hne]
  · cases xs with
    | nil =>
      obtain ⟨hnext, -⟩ := hc.path
      simp [Path, Links.insertAfter, Links.setNext, Links.setPrev, hbh, hbh.symm, hnext]
    | cons x xs =>
      obtain ⟨⟨hnext, hprev⟩, hp⟩ := hc.path
      have hxh : x ≠ h := fun he => hnd.1 (by simp [he])
      have hbx : b ≠ x := fun he => hbxs (by simp [he])
      have hx := nodup_cons.mp hnd.2
      refine ⟨⟨?_, ?_⟩, hp.congr (fun y hy => ?_) fun y hy => ?_⟩
      · simp [Links.insertAfter, Links.setNext, Links.setPrev, hbh, hnext]
      · simp [Links.insertAfter, Links.setNext, Links.setPrev, hbh.symm, hnext]
      · have hyh : y ≠ h := fun he => hnd.1 (he ▸ hy)
        have hyb : y ≠ b := fun he => hbxs (he ▸ hy)
        simp [Links.insertAfter, Links.setNext, Links.setPrev, hyh, hyb]
      · -- the node after the head is the only one that has got another predecessor
        have hyx : y ≠ x := by
          rintro rfl
          rw [mem_append, mem_singleton] at hy
          exact hy.elim hx.1 hxh
        have hyb : y ≠ b := by
          rintro rfl
          rw [mem_append, mem_singleton] at hy
          exact hy.elim (fun hm => hbxs (mem_cons_of_mem x hm)) hbh
        simp [Links.insertAfter, Links.setNext, Links.setPrev, hbh.symm, hnext, hyx, hyb]

theorem unlink (hc : Circ L h (xs ++ b :: ys)) : Circ (L.unlink b) h (xs ++ ys) := by
  obtain ⟨hxs, hys⟩ := path_append.mp hc.path
  have hsub : (h :: (xs ++ ys)).Sublist (h :: (xs ++ b :: ys)) :=
    ((List.Sublist.refl xs).append (sublist_cons_self b ys)).cons_cons h
  refine ⟨hc.nodup.sublist hsub, ?_⟩
  have hnd := nodup_cons.mp hc.nodup
  have happ := nodup_append.mp hnd.2
  have hb := nodup_cons.mp happ.2.1
  have hhxs : h ∉ xs := fun hm => hnd.1 (by simp [hm])
  have hhys : h ∉ ys := fun hm => hnd.1 (by simp [hm])
  have hhb : h ≠ b := fun he => hnd.1 (by simp [he])
  have hbxs : b ∉ xs := fun hm => happ.2.2 b hm b (by simp) rfl
  have hdisj : ∀ y ∈ xs, y ∉ ys := fun y hy hm => happ.2.2 y hy y (by simp [hm]) rfl
  obtain ⟨p, hp, hprev, hnext, hlast⟩ := hxs.exists_last
  have hpb : p ≠ b := by
    rintro rfl
    rw [mem_cons] at hp
    exact hp.elim (fun he => hhb he.symm) hbxs
  -- the two links that change
  set n := L.next b with hn
  have hnb : n ≠ b := by
    rintro he
    rw [hys.first.1] at hn
    have hm := head_mem (l := ys ++ [h]) (by simp)
    rw [← hn, he, mem_append, mem_singleton] at hm
    exact hm.elim hb.1 fun he => hhb he.symm
  have hL : L.unlink b = ⟨update L.next p n, update L.prev n p⟩ := by
    simp [Links.unlink, Links.setNext, Links.setPrev, ← hn, hprev, hnb.symm]
  rw [hL]
  have hleft : ∀ {ws}, Path L h ws p → ws ++ [p] = xs →
      Path ⟨update L.next p n, update L.prev n p⟩ h ws p := by
    rintro ws hw rfl
    have hnm : n ∉ ws ++ [p] := by
      intro hm
      rw [hn, hys.first.1] at hm
      have hm' := head_mem (l := ys ++ [h]) (by simp)
      rw [mem_append, mem_singleton] at hm'
      exact hm'.elim (fun hy => hdisj _ hm hy) fun he => hhxs (he ▸ hm)
    have hpw : p ∉ ws := by
      have := nodup_append.mp happ.1
      exact fun hm => this.2.2 p hm p (by simp) rfl
    have hph : p ≠ h := fun he => hhxs (by simp [← he])
    refine hw.congr (fun y hy => update_of_ne ?_ _ _)
      fun y hy => update_of_ne ?_ _ _
    · rintro rfl
      rw [mem_cons] at hy
      exact hy.elim hph hpw
    · rintro rfl
      exact hnm hy
  have hright : Path ⟨update L.next p n, update L.prev n p⟩ p ys h := by
    cases ys with
    | nil =>
      have hnh : n = h := hys.1
      exact ⟨by simp [hnh], by simp [hnh]⟩
    | cons y ys =>
      obtain ⟨⟨hny, -⟩, hys⟩ := hys
      have hny : n = y := hny
      have hy := nodup_cons.mp hb.2
      refine ⟨⟨by simp [hny], by simp [hny]⟩, hys.congr (fun w hw => ?_) fun w hw => ?_⟩
      · refine update_of_ne ?_ _ _
        rintro rfl
        rw [mem_cons] at hp
        exact hp.elim (fun he => hhys (he ▸ hw)) fun hm => hdisj w hm hw
      · refine update_of_ne ?_ _ _
        rw [hny]
        rintro rfl
        rw [mem_append, mem_singleton] at hw
        exact hw.elim hy.1 fun he => hhys (by simp [he])
  obtain ⟨rfl, rfl⟩ | ⟨ws, rfl, hw⟩ := hlast
  · exact hright
  · rw [append_assoc, singleton_append]
    exact path_append.mpr ⟨hleft hw rfl, hright⟩

theorem moveFront (hc : Circ L h (xs ++ b :: ys)) :
    Circ ((L.unlink b).insertAfter h b) h (b :: (xs ++ ys)) := by
  have hnd := nodup_cons.mp hc.nodup
  have happ := nodup_append.mp hnd.2
  have hbxs : b ∉ xs := fun hm => happ.2.2 b hm b (by simp) rfl
  have hbys : b ∉ ys := (nodup_cons.mp happ.2.1).1
  have hbh : b ≠ h := fun he => hnd.1 (by simp [← he])
  exact hc.unlink.insertAfter (by simp [hbh, hbxs, hbys])

end Circ

/-! ## Loops that follow the pointers -/

section search

variable [DecidableEq α]

/-- Follow the pointers from `p` on, until `f` holds or the head `h` is reached; `none` if
neither has happened after `n` nodes. -/
def search (step : α → α) (h : α) (f : α → Bool) : ℕ → α → Option (Option α)
  | 0, _ => none
  | n + 1, p => if p = h then some none else if f p then some (some p) else search step h f n (step p)

theorem Path.search (hp : Path L a xs h) (hh : h ∉ xs) (f : α → Bool) {n : ℕ}
    (hn : xs.length < n) : search L.next h f n (L.next a) = some (xs.find? f) := by
  induction xs generalizing a n with
  | nil =>
    obtain ⟨m, rfl⟩ : ∃ m, n = m + 1 := ⟨n - 1, by simp at hn; omega⟩
    rw [hp.1, Xv6.search, if_pos rfl, find?_nil]
  | cons x xs ih =>
    obtain ⟨m, rfl⟩ : ∃ m, n = m + 1 := ⟨n - 1, by simp at hn; omega⟩
    obtain ⟨⟨hnext, -⟩, hp⟩ := hp
    have hx : x ≠ h := fun he => hh (by simp [he])
    rw [hnext, Xv6.search, if_neg hx]
    cases hf : f x with
    | true => rw [if_pos rfl, find?_cons_of_pos hf]
    | false =>
      rw [if_neg (by simp), find?_cons_of_neg (by simp [hf])]
      refine ih hp (fun hm => hh (mem_cons_of_mem x hm)) ?_
      rw [length_cons] at hn
      omega

namespace Circ

theorem search_next (hc : Circ L h xs) (f : α → Bool) {n : ℕ} (hn : xs.length < n) :
    search L.next h f n (L.next h) = some (xs.find? f) :=
  hc.path.search hc.head_notMem f hn

theorem search_prev (hc : Circ L h xs) (f : α → Bool) {n : ℕ} (hn : xs.length < n) :
    search L.prev h f n (L.prev h) = some (xs.reverse.find? f) :=
  hc.flip.path.search hc.flip.head_notMem f (by simpa using hn)

end Circ

end search

end Xv6
