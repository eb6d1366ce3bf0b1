import Mathlib.Algebra.BigOperators.Group.Finset.Basic
import Mathlib.Algebra.BigOperators.Group.Finset.Piecewise
import Mathlib.Algebra.BigOperators.Group.Multiset.Basic
import Mathlib.Data.Multiset.UnionInter
import Mathlib.Tactic.Abel
import Mathlib.Tactic.Common

/-!
# Two-level tables in a memory of pages

A memory is made of pages, and a page of words: `w f i` is word `i` of page `f`.  A two-level
table is a page, its root, whose words name further pages, whose words are the entries of the
table.  Which words name a page, and which page, is up to a `Format`; the number of words in
a page is the fan-out of both levels.

* `leaf_set` --- storing an entry changes that entry only.
* `child_graft`, `leaf_graft` --- a cleared page that is put under a word of the root brings
  no entries with it.
* `child_congr`, `leaf_congr` --- nothing outside of the table's own pages matters to it.
* `nodes_update`, `leaves_update` --- what such a change does to the pages of the table, and to
  the pages that its entries name.

All of this needs that the pages of the table are distinct, `(nodes w d).Nodup`.
-/

namespace Xv6.Radix

open Function Finset

/-- How words name pages. -/
structure Format where
  /-- The number of words in a page. -/
  fan : ℕ
  present : ℕ → Bool
  page : ℕ → ℕ
  absent_zero : present 0 = false

/-- A memory of pages of words. -/
abbrev Words := ℕ → ℕ → ℕ

/-- Store a word. -/
def set (w : Words) (f i x : ℕ) : Words := update w f (update (w f) i x)

/-- Clear a page. -/
def clear (w : Words) (f : ℕ) : Words := update w f fun _ => 0

section Words

variable {w : Words} {f g i j x : ℕ}

@[simp] theorem set_same : set w f i x f i = x := by
  simp [set]

theorem set_of_ne (h : g ≠ f) : set w f i x g = w g := by
  simp [set, h]

theorem set_word_of_ne (h : j ≠ i) : set w f i x g j = w g j := by
  by_cases hg : g = f
  · subst hg
    simp [set, h]
  · rw [set_of_ne hg]

@[simp] theorem clear_same : clear w f f i = 0 := by
  simp [clear]

theorem clear_of_ne (h : g ≠ f) : clear w f g = w g := by
  simp [clear, h]

end Words

namespace Format

variable (F : Format) (w : Words) (d : ℕ)

/-- The page that word `j` of the root names. -/
def child (j : ℕ) : Option ℕ := if F.present (w d j) then some (F.page (w d j)) else none

/-- Entry `v` of the table, which is `0` if there is no page for it. -/
def leaf (v : ℕ) : ℕ :=
  match F.child w d (v / F.fan) with
  | none => 0
  | some t => w t (v % F.fan)

/-- The page that a word names, if it names one. -/
def named (x : ℕ) : Multiset ℕ := if F.present x then {F.page x} else 0

/-- The root and the pages under it. -/
@[irreducible] def nodes : Multiset ℕ := {d} + ∑ j ∈ range F.fan, F.named (w d j)

/-- The pages that the first `m` entries name. -/
@[irreducible] def leaves (m : ℕ) : Multiset ℕ := ∑ v ∈ range m, F.named (F.leaf w d v)

variable {F w d} {w' : Words} {j k t u v x m f : ℕ}

theorem mem_named : f ∈ F.named x ↔ F.present x = true ∧ F.page x = f := by
  unfold named
  split
  · rename_i h
    rw [Multiset.mem_singleton, eq_comm]
    exact (and_iff_right h).symm
  · rename_i h
    simp [h]

theorem named_zero : F.named 0 = 0 := by
  simp [named, F.absent_zero]

theorem child_eq_some : F.child w d j = some t ↔ t ∈ F.named (w d j) := by
  rw [mem_named, child]
  split <;> simp_all

theorem leaf_of_child (h : F.child w d (v / F.fan) = some t) : F.leaf w d v = w t (v % F.fan) := by
  simp [leaf, h]

theorem leaf_of_none (h : F.child w d (v / F.fan) = none) : F.leaf w d v = 0 := by
  simp [leaf, h]

theorem nodes_eq : F.nodes w d = {d} + ((List.range F.fan).map fun j => F.named (w d j)).sum := by
  rw [nodes]
  rfl

theorem mem_nodes : f ∈ F.nodes w d ↔ f = d ∨ ∃ j < F.fan, F.child w d j = some f := by
  simp [nodes, Multiset.mem_sum, child_eq_some]

theorem mem_leaves : f ∈ F.leaves w d m ↔ ∃ v < m, f ∈ F.named (F.leaf w d v) := by
  simp [leaves, Multiset.mem_sum]

theorem root_mem : d ∈ F.nodes w d := mem_nodes.mpr (.inl rfl)

theorem child_mem (hj : j < F.fan) (h : F.child w d j = some t) : t ∈ F.nodes w d :=
  mem_nodes.mpr (.inr ⟨j, hj, h⟩)

theorem nodes_clear : F.nodes (clear w d) d = {d} := by
  rw [nodes, sum_eq_zero, add_zero]
  intro j _
  rw [clear_same, named_zero]

theorem leaves_eq_zero (h : ∀ v < m, F.leaf w d v = 0) : F.leaves w d m = 0 := by
  rw [leaves, sum_eq_zero]
  intro v hv
  rw [h v (mem_range.mp hv), named_zero]

/-! ## Distinct pages -/

theorem ne_of_nodup_sum {s : Finset ℕ} {g : ℕ → Multiset ℕ} (h : (∑ i ∈ s, g i).Nodup) (hj : j ∈ s)
    (hk : k ∈ s) (hne : j ≠ k) {a b : ℕ} (ha : a ∈ g j) (hb : b ∈ g k) : a ≠ b := by
  rw [← add_sum_erase s g hj, ← add_sum_erase _ g (mem_erase.mpr ⟨hne.symm, hk⟩)]
    at h
  have hdis := (Multiset.nodup_add.mp h).2.2
  rintro rfl
  exact Multiset.disjoint_left.mp hdis ha (Multiset.mem_add.mpr (.inl hb))

theorem child_ne_root (hn : (F.nodes w d).Nodup) (hj : j < F.fan) (h : F.child w d j = some t) :
    t ≠ d := by
  rintro rfl
  rw [nodes] at hn
  have hdis := (Multiset.nodup_add.mp hn).2.2
  refine Multiset.disjoint_left.mp hdis (Multiset.mem_singleton_self t) ?_
  exact Multiset.mem_sum.mpr ⟨j, mem_range.mpr hj, child_eq_some.mp h⟩

theorem child_inj (hn : (F.nodes w d).Nodup) (hj : j < F.fan) (hk : k < F.fan)
    (h : F.child w d j = some t) (h' : F.child w d k = some t) : j = k := by
  by_contra hne
  rw [nodes] at hn
  have hsum := (Multiset.nodup_add.mp hn).2.1
  exact ne_of_nodup_sum hsum (mem_range.mpr hj) (mem_range.mpr hk) hne
    (child_eq_some.mp h) (child_eq_some.mp h') rfl

theorem leaf_inj (hn : (F.leaves w d m).Nodup) (hu : u < m) (hv : v < m)
    (hfu : f ∈ F.named (F.leaf w d u)) (hfv : f ∈ F.named (F.leaf w d v)) : u = v := by
  by_contra hne
  rw [leaves] at hn
  exact ne_of_nodup_sum hn (mem_range.mpr hu) (mem_range.mpr hv) hne hfu hfv rfl

/-! ## Memories that agree on the table -/

theorem child_congr (h : w' d = w d) : F.child w' d j = F.child w d j := by
  rw [child, child, h]

theorem leaf_congr (h : ∀ f ∈ F.nodes w d, w' f = w f) (hv : v / F.fan < F.fan) :
    F.leaf w' d v = F.leaf w d v := by
  have hroot : w' d = w d := h d root_mem
  cases hc : F.child w d (v / F.fan) with
  | none =>
    rw [leaf_of_none hc, leaf_of_none ((child_congr hroot).trans hc)]
  | some t =>
    rw [leaf_of_child hc, leaf_of_child ((child_congr hroot).trans hc), h t (child_mem hv hc)]

theorem named_word : F.named (w d j) = (F.child w d j).elim 0 fun t => {t} := by
  rw [named, child]
  split <;> rfl

theorem card_nodes :
    (F.nodes w d).card = 1 + {j ∈ range F.fan | (F.child w d j).isSome}.card := by
  rw [nodes, Multiset.card_add, Multiset.card_singleton, Multiset.card_sum, card_filter]
  congr 1
  refine sum_congr rfl fun j _ => ?_
  rw [named_word]
  cases F.child w d j <;> rfl

theorem card_leaves :
    (F.leaves w d m).card = {v ∈ range m | F.present (F.leaf w d v)}.card := by
  rw [leaves, Multiset.card_sum, card_filter]
  refine sum_congr rfl fun v _ => ?_
  rw [named]
  split <;> rfl

theorem nodes_congr (h : ∀ j < F.fan, F.child w' d j = F.child w d j) :
    F.nodes w' d = F.nodes w d := by
  rw [nodes, nodes]
  congr 1
  refine sum_congr rfl fun j hj => ?_
  rw [named_word, named_word, h j (mem_range.mp hj)]

theorem leaves_congr (h : ∀ v < m, F.named (F.leaf w' d v) = F.named (F.leaf w d v)) :
    F.leaves w' d m = F.leaves w d m := by
  rw [leaves, leaves]
  exact sum_congr rfl fun v hv => h v (mem_range.mp hv)

theorem sum_update (g' : ℕ → Multiset ℕ) {g : ℕ → Multiset ℕ} {y : Multiset ℕ} (hv : v < m)
    (h : ∀ u < m, g' u = if u = v then y else g u) :
    (∑ u ∈ range m, g' u) + g v = (∑ u ∈ range m, g u) + y := by
  have hmem : v ∈ range m := mem_range.mpr hv
  have hrest : ∀ u ∈ (range m).erase v, g' u = g u := by
    intro u hu
    obtain ⟨hne, hu⟩ := mem_erase.mp hu
    rw [h u (mem_range.mp hu), if_neg hne]
  rw [← add_sum_erase _ _ hmem, ← add_sum_erase _ g hmem, sum_congr rfl hrest,
    h v hv, if_pos rfl]
  abel

theorem leaves_update (hv : v < m)
    (h : ∀ u < m, F.leaf w' d u = if u = v then x else F.leaf w d u) :
    F.leaves w' d m + F.named (F.leaf w d v) = F.leaves w d m + F.named x := by
  rw [leaves, leaves]
  refine sum_update _ (g := fun u => F.named (F.leaf w d u)) hv fun u hu => ?_
  rw [h u hu]
  split <;> rfl

theorem nodes_update (hj : j < F.fan) (hnone : F.child w d j = none)
    (h : ∀ k < F.fan, F.child w' d k = if k = j then some t else F.child w d k) :
    F.nodes w' d = t ::ₘ F.nodes w d := by
  have hsum := sum_update (fun k => F.named (w' d k)) (g := fun k => F.named (w d k))
    (y := {t}) hj fun k hk => by
      rw [named_word, h k hk]
      split
      · rfl
      · rw [named_word]
  rw [named_word, hnone, Option.elim_none, add_zero] at hsum
  rw [nodes, nodes, hsum, ← Multiset.singleton_add]
  abel

/-! ## Storing an entry -/

section Set

variable (hn : (F.nodes w d).Nodup) (hv : v / F.fan < F.fan) (hc : F.child w d (v / F.fan) = some t)

include hn hv hc

theorem root_set : set w t (v % F.fan) x d = w d := set_of_ne (child_ne_root hn hv hc).symm

theorem leaf_set (hu : u / F.fan < F.fan) :
    F.leaf (set w t (v % F.fan) x) d u = if u = v then x else F.leaf w d u := by
  have hroot := root_set (x := x) hn hv hc
  cases hcu : F.child w d (u / F.fan) with
  | none =>
    rw [leaf_of_none ((child_congr hroot).trans hcu), leaf_of_none hcu, if_neg]
    rintro rfl
    rw [hc] at hcu
    cases hcu
  | some s =>
    rw [leaf_of_child ((child_congr hroot).trans hcu), leaf_of_child hcu]
    by_cases hst : s = t
    · subst hst
      have hquot : u / F.fan = v / F.fan := child_inj hn hu hv hcu hc
      by_cases huv : u = v
      · subst huv
        rw [if_pos rfl, set_same]
      · rw [if_neg huv, set_word_of_ne]
        intro hmod
        refine huv ?_
        rw [← Nat.div_add_mod u F.fan, ← Nat.div_add_mod v F.fan, hquot, hmod]
    · rw [set_of_ne hst, if_neg]
      rintro rfl
      exact hst (Option.some.inj (hcu.symm.trans hc))

end Set

/-! ## A new page under the root -/

section Graft

variable (ht : t ∉ F.nodes w d) (hx : F.present x = true) (hpage : F.page x = t)

/-- The memory in which the cleared page `t` is named by word `j` of the root. -/
def graft (w : Words) (d j t x : ℕ) : Words := set (clear w t) d j x

include ht in
theorem graft_root_of_ne (hk : k ≠ j) : graft w d j t x d k = w d k := by
  have hdt : d ≠ t := by
    rintro rfl
    exact ht root_mem
  rw [graft, set_word_of_ne hk, clear_of_ne hdt]

theorem graft_of_ne (hf : f ≠ d) (hft : f ≠ t) : graft w d j t x f = w f := by
  rw [graft, set_of_ne hf, clear_of_ne hft]

include ht in
theorem graft_page : graft w d j t x t k = 0 := by
  have htd : t ≠ d := by
    rintro rfl
    exact ht root_mem
  rw [graft, set_of_ne htd, clear_same]

include ht hx hpage in
theorem child_graft :
    F.child (graft w d j t x) d k = if k = j then some t else F.child w d k := by
  by_cases hk : k = j
  · subst hk
    rw [if_pos rfl, child, graft, set_same, if_pos hx, hpage]
  · rw [if_neg hk, child, child, graft_root_of_ne ht hk]

include ht hx hpage in
theorem leaf_graft (hn : (F.nodes w d).Nodup) (hnone : F.child w d j = none)
    (hv : v / F.fan < F.fan) : F.leaf (graft w d j t x) d v = F.leaf w d v := by
  have hchild : F.child (graft w d j t x) d (v / F.fan) = _ := child_graft ht hx hpage
  by_cases hvj : v / F.fan = j
  · rw [if_pos hvj] at hchild
    rw [leaf_of_child hchild, leaf_of_none (hvj ▸ hnone), graft_page ht]
  · rw [if_neg hvj] at hchild
    cases hc : F.child w d (v / F.fan) with
    | none => rw [leaf_of_none (hchild.trans hc), leaf_of_none hc]
    | some s =>
      have hst : s ≠ t := by
        rintro rfl
        exact ht (child_mem hv hc)
      rw [leaf_of_child (hchild.trans hc), leaf_of_child hc,
        graft_of_ne (child_ne_root hn hv hc) hst]

end Graft

end Format
end Xv6.Radix
