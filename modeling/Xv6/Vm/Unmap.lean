import Mathlib.Order.Interval.Finset.Nat
import Xv6.Vm.Dir

/-!
# Unmapping pages

`deallocuvm` walks over the addresses of a range.  Where there is a page table it goes on by a
page, and where there is none by 4 MB, from wherever it is inside of those 4 MB.

* `deallocFrom_ok`, `deallocFrom_kfree` --- the loop clears the entries of the pages it comes
  to, and nothing else; it panics if one of them names a page that `kfree` does not take.
-/

namespace Xv6.Vm.Mem

open List
open Multiset (cons_coe mem_add mem_sum nodup_add singleton_add)

variable {L : Layout} {M M' : Mem} {d u v e s f g oldsz newsz fuel : ℕ}

/-! ## One page -/

/-- The memory after `kfree` of page `f`. -/
def freed (M : Mem) (f : ℕ) : Mem :=
  { page := Function.update M.page f fun _ => 1, free := f :: M.free }

theorem kfree_eq (h : L.Allocatable f) : M.kfree L f = .ok (M.freed f) := by
  rw [kfree, if_neg]
  · rfl
  · exact not_or.mpr ⟨not_lt.mpr h.1, not_le.mpr h.2⟩

theorem kfree_error (h : ¬ L.Allocatable f) : M.kfree L f = .error .kfree := by
  rw [kfree, if_pos]
  rwa [Layout.Allocatable, not_and_or, Nat.not_le, Nat.not_lt] at h

theorem page_freed_of_ne (h : g ≠ f) : (M.freed f).page g = M.page g := Function.update_of_ne h _ _

/-- The memory after page `v` has been unmapped. -/
def unmap (M : Mem) (d v : ℕ) : Mem :=
  match M.table d (v / nptentries) with
  | none => M
  | some t =>
    if present (M.pte d v) then (M.freed (pageOf (M.pte d v))).setWord t (v % nptentries) 0
    else M

theorem present_iff_named {x : ℕ} : format.named x = 0 ↔ present x = false := by
  rw [Radix.Format.named]
  split <;> simp_all

section Unmap

theorem unmap_of_absent (h : present (M.pte d v) = false) : M.unmap d v = M := by
  rw [unmap]
  split
  · rfl
  · rw [if_neg (by simp [h])]

theorem exists_table (h : present (M.pte d v) = true) : ∃ t, M.table d (v / nptentries) = some t := by
  rcases ht : M.table d (v / nptentries) with _ | t
  · rw [pte_of_no_table ht] at h
    cases h
  · exact ⟨t, rfl⟩

theorem unmap_of_present (h : present (M.pte d v) = true) {t : ℕ}
    (ht : M.table d (v / nptentries) = some t) :
    M.unmap d v = (M.freed (pageOf (M.pte d v))).setWord t (v % nptentries) 0 := by
  rw [unmap, ht]
  exact if_pos h

theorem nodes_nodup (hn : (M.held d).Nodup) : (M.nodes d).Nodup := (nodup_add.mp hn).1

theorem notMem_nodes_of_mem_pages (hn : (M.held d).Nodup) (h : f ∈ M.pages d) : f ∉ M.nodes d :=
  fun h' => Multiset.disjoint_left.mp (nodup_add.mp hn).2.2 h' h

variable (hn : (M.held d).Nodup) (hv : v < userPages)

include hn hv

theorem page_freed_of_mem_nodes (h : present (M.pte d v) = true) (hg : g ∈ M.nodes d) :
    (M.freed (pageOf (M.pte d v))).page g = M.page g := by
  refine page_freed_of_ne ?_
  rintro rfl
  exact notMem_nodes_of_mem_pages hn (mem_pages.mpr ⟨v, hv, h, rfl⟩) hg

theorem table_unmap (j : ℕ) : (M.unmap d v).table d j = M.table d j := by
  rcases h : present (M.pte d v)
  · rw [unmap_of_absent h]
  · obtain ⟨t, ht⟩ := exists_table h
    have hroot := table_congr (page_freed_of_mem_nodes hn hv h root_mem)
    have hnodes : ((M.freed (pageOf (M.pte d v))).nodes d).Nodup := by
      rw [nodes_congr fun j _ => hroot j]
      exact nodes_nodup hn
    rw [unmap_of_present h ht, table_setWord hnodes (userPages_lt hv) ((hroot _).trans ht), hroot]

theorem pte_unmap (hu : u < 2 ^ 20) :
    (M.unmap d v).pte d u = if u = v ∧ present (M.pte d v) = true then 0 else M.pte d u := by
  rcases h : present (M.pte d v)
  · rw [unmap_of_absent h, if_neg (by simp)]
  · obtain ⟨t, ht⟩ := exists_table h
    have hroot := table_congr (page_freed_of_mem_nodes hn hv h root_mem)
    have hnodes : ((M.freed (pageOf (M.pte d v))).nodes d).Nodup := by
      rw [nodes_congr fun j _ => hroot j]
      exact nodes_nodup hn
    rw [unmap_of_present h ht,
      pte_setWord hnodes (userPages_lt hv) ((hroot _).trans ht) (by decide) hu,
      pte_congr (fun g hg => page_freed_of_mem_nodes hn hv h hg) hu]
    simp

theorem pages_unmap : M.pages d = format.named (M.pte d v) + (M.unmap d v).pages d := by
  rcases h : present (M.pte d v)
  · rw [unmap_of_absent h, present_iff_named.mpr h, zero_add]
  · rw [Radix.Format.named, if_pos h, singleton_add]
    refine pages_remove hv h fun u hu => ?_
    rw [pte_unmap hn hv (userPages_lt hu)]
    simp [h]

theorem held_unmap : M.held d = format.named (M.pte d v) + (M.unmap d v).held d := by
  rw [held, held, nodes_congr fun j _ => table_unmap hn hv j, pages_unmap hn hv, add_left_comm]

omit hn hv in
theorem free_unmap :
    ((M.unmap d v).free : Multiset ℕ) = format.named (M.pte d v) + (M.free : Multiset ℕ) := by
  rcases h : present (M.pte d v)
  · rw [unmap_of_absent h, present_iff_named.mpr h, zero_add]
  · obtain ⟨t, ht⟩ := exists_table h
    rw [unmap_of_present h ht, Radix.Format.named, if_pos h, singleton_add]
    rfl

omit hn in
theorem page_unmap (hg : g ∉ M.nodes d) (hgf : g ∉ format.named (M.pte d v)) :
    (M.unmap d v).page g = M.page g := by
  rcases h : present (M.pte d v)
  · rw [unmap_of_absent h]
  · obtain ⟨t, ht⟩ := exists_table h
    have hne : g ≠ t := by
      rintro rfl
      exact hg (table_mem (userPages_lt hv) ht)
    rw [unmap_of_present h ht, page_setWord_of_ne hne, page_freed_of_ne]
    rintro rfl
    exact hgf (Radix.Format.mem_named.mpr ⟨h, rfl⟩)

end Unmap

/-! ## Many pages -/

/-- In `M'` the pages `us` of the directory have been unmapped and freed. -/
structure Unmapped (d : ℕ) (us : List ℕ) (M M' : Mem) : Prop where
  table : ∀ j, M'.table d j = M.table d j
  pte : ∀ u < 2 ^ 20,
    M'.pte d u = if u ∈ us ∧ present (M.pte d u) = true then 0 else M.pte d u
  free : (M'.free : Multiset ℕ) = (us.map fun u => format.named (M.pte d u)).sum + M.free
  held : M.held d = (us.map fun u => format.named (M.pte d u)).sum + M'.held d
  page : ∀ g ∉ M.nodes d, (∀ u ∈ us, g ∉ format.named (M.pte d u)) → M'.page g = M.page g

theorem Unmapped.refl (M : Mem) : Unmapped d [] M M where
  table _ := rfl
  pte _ _ := by simp
  free := by simp
  held := by simp
  page _ _ _ := rfl

theorem Unmapped.cons (hn : (M.held d).Nodup) (hv : v < userPages) {us : List ℕ} (hvus : v ∉ us)
    (hus : ∀ u ∈ us, u < userPages) (h : Unmapped d us (M.unmap d v) M') :
    Unmapped d (v :: us) M M' := by
  have hpte : ∀ u ∈ us, (M.unmap d v).pte d u = M.pte d u := by
    intro u hu
    rw [pte_unmap hn hv (userPages_lt (hus u hu)), if_neg]
    rintro ⟨rfl, -⟩
    exact hvus hu
  have hsum : us.map (fun u => format.named ((M.unmap d v).pte d u)) =
      us.map fun u => format.named (M.pte d u) :=
    map_congr_left fun u hu => by rw [hpte u hu]
  constructor
  · intro j
    rw [h.table, table_unmap hn hv]
  · intro u hu
    rw [h.pte u hu, pte_unmap hn hv hu]
    by_cases huv : u = v
    · subst huv
      rcases hp : present (M.pte d u) <;> simp [hvus, hp]
    · simp [huv]
  · rw [h.free, hsum, free_unmap, map_cons, sum_cons]
    abel
  · rw [held_unmap hn hv, h.held, hsum, map_cons, sum_cons]
    abel
  · intro g hg hgus
    rw [h.page g, page_unmap hv hg (hgus v mem_cons_self)]
    · rwa [nodes_congr fun j _ => table_unmap hn hv j]
    · intro u hu
      rw [hpte u hu]
      exact hgus u (mem_cons_of_mem v hu)

/-! ## The loop of `deallocuvm` -/

/-- The page that the loop comes to after page `v`. -/
def next (M : Mem) (d v : ℕ) : ℕ :=
  if (M.table d (v / nptentries)).isSome then v + 1 else v + nptentries

/-- The pages that the loop comes to from page `v` on, up to page `e`. -/
def path (M : Mem) (d e : ℕ) : ℕ → ℕ → List ℕ
  | 0, _ => []
  | fuel + 1, v => if v < e then v :: path M d e fuel (M.next d v) else []

theorem lt_next : v < M.next d v := by
  rw [next]
  split
  · omega
  · simp only [nptentries]
    omega

theorem path_congr (h : ∀ j, M'.table d j = M.table d j) :
    ∀ fuel v, M'.path d e fuel v = M.path d e fuel v
  | 0, _ => rfl
  | fuel + 1, v => by
    rw [path, path, path_congr h fuel, next, next, h]

theorem bounds_of_mem_path : ∀ {fuel v : ℕ}, u ∈ M.path d e fuel v → v ≤ u ∧ u < e
  | 0, _, h => by cases h
  | fuel + 1, v, h => by
    rw [path] at h
    split at h
    · rcases mem_cons.mp h with rfl | h
      · omega
      · have := bounds_of_mem_path h
        have := lt_next (M := M) (d := d) (v := v)
        omega
    · cases h

theorem path_increasing : ∀ fuel v, (M.path d e fuel v).Pairwise (· < ·)
  | 0, _ => List.Pairwise.nil
  | fuel + 1, v => by
    rw [path]
    split
    · refine pairwise_cons.mpr ⟨fun u hu => ?_, path_increasing fuel _⟩
      have := bounds_of_mem_path hu
      have := lt_next (M := M) (d := d) (v := v)
      omega
    · exact List.Pairwise.nil

theorem mul_pgsize_lt_iff {sz : ℕ} : v * pgsize < sz ↔ v < pagesBetween 0 sz := by
  simp only [pagesBetween, pgsize]
  omega

theorem pagesBetween_le (h : oldsz ≤ kernbase) : pagesBetween 0 oldsz ≤ userPages := by
  simp only [pagesBetween, userPages, kernbase, pgsize] at *
  omega

theorem deallocFrom_succ (hold : oldsz ≤ kernbase) (hv : v < pagesBetween 0 oldsz) :
    deallocFrom L d oldsz (fuel + 1) (v * pgsize) M =
      if present (M.pte d v) = true ∧ ¬ L.Allocatable (pageOf (M.pte d v)) then .error .kfree
      else deallocFrom L d oldsz fuel (M.next d v * pgsize) (M.unmap d v) := by
  have hvu : v < userPages := hv.trans_le (pagesBetween_le hold)
  have hone : (v * pgsize + pgsize) % 2 ^ 32 = (v + 1) * pgsize := by
    simp only [userPages, kernbase, pgsize] at hvu ⊢
    omega
  have hmany : (v * pgsize + (nptentries - 1) * pgsize + pgsize) % 2 ^ 32 =
      (v + nptentries) * pgsize := by
    simp only [userPages, kernbase, pgsize, nptentries] at hvu ⊢
    omega
  rw [deallocFrom, if_pos (mul_pgsize_lt_iff.mpr hv), walk_eq (userPages_lt hvu), next]
  rcases ht : M.table d (v / nptentries) with _ | t
  · have habs : present (M.pte d v) = false := by
      rw [pte_of_no_table ht]
      rfl
    rw [unmap_of_absent habs, if_neg (by simp [habs])]
    change deallocFrom L d oldsz fuel _ M = _
    rw [hmany]
    rfl
  · have hpte := pte_of_table ht
    change (if present (M.word t (v % nptentries)) = true then _ else _) = _
    rw [← hpte, hone]
    rcases hp : present (M.pte d v)
    · rw [unmap_of_absent hp]
      rfl
    · rw [if_pos rfl]
      by_cases hal : L.Allocatable (pageOf (M.pte d v))
      · rw [if_neg hal.ne_zero, kfree_eq hal, if_neg (by simp [hal]), unmap_of_present hp ht]
        rfl
      · rw [kfree_error hal]
        symm
        rw [if_pos ⟨rfl, hal⟩]
        split <;> rfl

theorem deallocFrom_done (hv : pagesBetween 0 oldsz ≤ v) :
    deallocFrom L d oldsz (fuel + 1) (v * pgsize) M = .ok M := by
  rw [deallocFrom, if_neg]
  rw [mul_pgsize_lt_iff]
  omega

theorem path_succ (hv : v < e) :
    M.path d e (fuel + 1) v = v :: M.path d e fuel (M.next d v) := if_pos hv

theorem path_done (hv : e ≤ v) : M.path d e (fuel + 1) v = [] := if_neg (not_lt.mpr hv)

theorem pte_unmap_of_mem_path (hn : (M.held d).Nodup) (hv : v < userPages) (he : e ≤ userPages)
    (hu : u ∈ M.path d e fuel (M.next d v)) : (M.unmap d v).pte d u = M.pte d u := by
  have hb := bounds_of_mem_path hu
  have hlt := lt_next (M := M) (d := d) (v := v)
  rw [pte_unmap hn hv (userPages_lt (hb.2.trans_le he)), if_neg]
  rintro ⟨rfl, -⟩
  omega

theorem held_unmap_nodup (hn : (M.held d).Nodup) (hv : v < userPages) :
    ((M.unmap d v).held d).Nodup := by
  rw [held_unmap hn hv] at hn
  exact (nodup_add.mp hn).2.1

theorem deallocFrom_ok (hold : oldsz ≤ kernbase) (hn : (M.held d).Nodup)
    (hfuel : pagesBetween 0 oldsz ≤ v + fuel)
    (hal : ∀ u ∈ M.path d (pagesBetween 0 oldsz) (fuel + 1) v, present (M.pte d u) = true →
      L.Allocatable (pageOf (M.pte d u))) :
    ∃ M', deallocFrom L d oldsz (fuel + 1) (v * pgsize) M = .ok M' ∧
      Unmapped d (M.path d (pagesBetween 0 oldsz) (fuel + 1) v) M M' := by
  have he := pagesBetween_le hold
  induction fuel generalizing v M with
  | zero =>
    rw [add_zero] at hfuel
    rw [path_done hfuel]
    exact ⟨M, deallocFrom_done hfuel, .refl M⟩
  | succ fuel ih =>
    rcases Nat.lt_or_ge v (pagesBetween 0 oldsz) with hv | hv
    · have hvu := hv.trans_le he
      have hlt := lt_next (M := M) (d := d) (v := v)
      have hpath := path_congr (e := pagesBetween 0 oldsz) (table_unmap hn hvu) (fuel + 1)
        (M.next d v)
      rw [path_succ hv] at hal ⊢
      rw [deallocFrom_succ hold hv, if_neg fun h => h.2 (hal v mem_cons_self h.1)]
      obtain ⟨M', hrun, hM'⟩ := ih (M := M.unmap d v) (v := M.next d v) (held_unmap_nodup hn hvu)
        (by omega) fun u hu hp => by
          rw [hpath] at hu
          rw [pte_unmap_of_mem_path hn hvu he hu] at hp ⊢
          exact hal u (mem_cons_of_mem v hu) hp
      rw [hpath] at hM'
      refine ⟨M', hrun, hM'.cons hn hvu ?_ fun u hu => (bounds_of_mem_path hu).2.trans_le he⟩
      intro hmem
      have := (bounds_of_mem_path hmem).1
      omega
    · rw [path_done hv]
      exact ⟨M, deallocFrom_done hv, .refl M⟩

theorem deallocFrom_kfree (hold : oldsz ≤ kernbase) (hn : (M.held d).Nodup)
    (hu : u ∈ M.path d (pagesBetween 0 oldsz) fuel v) (hp : present (M.pte d u) = true)
    (hal : ¬ L.Allocatable (pageOf (M.pte d u))) :
    deallocFrom L d oldsz fuel (v * pgsize) M = .error .kfree := by
  have he := pagesBetween_le hold
  induction fuel generalizing v M with
  | zero => cases hu
  | succ fuel ih =>
    rcases Nat.lt_or_ge v (pagesBetween 0 oldsz) with hv | hv
    · have hvu := hv.trans_le he
      rw [deallocFrom_succ hold hv]
      split
      · rfl
      rename_i hgo
      rw [path_succ hv] at hu
      rcases mem_cons.mp hu with rfl | hu
      · exact absurd ⟨hp, hal⟩ hgo
      · have hpte := pte_unmap_of_mem_path hn hvu he hu
        rw [← path_congr (table_unmap hn hvu)] at hu
        refine ih (held_unmap_nodup hn hvu) hu ?_ ?_
        · rwa [hpte]
        · rwa [hpte]
    · rw [path_done hv] at hu
      cases hu

/-! ## What the loop does not come to -/

/-- Page `u` is in the first 4 MB with a page table, and nearer to the start of them than `s` is
to the start of its own. -/
def Skipped (M : Mem) (d s u : ℕ) : Prop :=
  s / nptentries < u / nptentries ∧ u % nptentries < s % nptentries ∧
    ∀ j, s / nptentries ≤ j → j < u / nptentries → M.table d j = none

theorem not_skipped_of_table {t : ℕ} (h : M.table d (v / nptentries) = some t) :
    ¬ M.Skipped d v u := by
  rintro ⟨hlt, -, hnone⟩
  rw [hnone _ le_rfl hlt] at h
  cases h

theorem not_skipped_succ {t : ℕ} (h : M.table d (v / nptentries) = some t) :
    ¬ M.Skipped d (v + 1) u := by
  rintro ⟨hlt, hmod, hnone⟩
  have hdiv : (v + 1) / nptentries = v / nptentries := by
    simp only [nptentries] at hmod ⊢
    omega
  rw [hdiv] at hlt hnone
  rw [hnone _ le_rfl hlt] at h
  cases h

theorem skipped_iff (h : M.table d (v / nptentries) = none) (huv : v / nptentries < u / nptentries) :
    M.Skipped d v u ↔ u < v + nptentries ∨ M.Skipped d (v + nptentries) u := by
  have hdiv : (v + nptentries) / nptentries = v / nptentries + 1 := Nat.add_div_right v (by decide)
  have hmod : (v + nptentries) % nptentries = v % nptentries := Nat.add_mod_right v nptentries
  rw [Skipped, Skipped, hdiv, hmod]
  constructor
  · rintro ⟨-, hlt, hnone⟩
    by_cases hnext : u / nptentries = v / nptentries + 1
    · left
      simp only [nptentries] at hlt hnext ⊢
      omega
    · exact .inr ⟨by omega, hlt, fun j hj => hnone j (by omega)⟩
  · rintro (hlt | ⟨hlt, hmod, hnone⟩)
    · have hnext : u / nptentries = v / nptentries + 1 := by
        simp only [nptentries] at huv hlt ⊢
        omega
      refine ⟨huv, ?_, fun j hj hju => ?_⟩
      · simp only [nptentries] at hlt hnext ⊢
        omega
      · obtain rfl : j = v / nptentries := by omega
        exact h
    · refine ⟨huv, hmod, fun j hj hju => ?_⟩
      rcases eq_or_lt_of_le hj with rfl | hj
      · exact h
      · exact hnone j hj hju

/-- **The loop comes to a page with a page table exactly if the page is not skipped.** -/
theorem mem_path {t : ℕ} (hfuel : e ≤ v + fuel) (ht : M.table d (u / nptentries) = some t)
    (hvu : v ≤ u) (hue : u < e) : u ∈ M.path d e (fuel + 1) v ↔ ¬ M.Skipped d v u := by
  induction fuel generalizing v with
  | zero => omega
  | succ fuel ih =>
    have hlt := lt_next (M := M) (d := d) (v := v)
    rw [path_succ (hvu.trans_lt hue), mem_cons]
    rcases hvt : M.table d (v / nptentries) with _ | t'
    · have hdiv : v / nptentries < u / nptentries := by
        refine lt_of_le_of_ne (Nat.div_le_div_right hvu) ?_
        intro heq
        rw [heq, ht] at hvt
        cases hvt
      have hne : u ≠ v := by
        rintro rfl
        exact lt_irrefl _ hdiv
      have hnext : M.next d v = v + nptentries := by
        rw [next, hvt]
        rfl
      rw [skipped_iff hvt hdiv, hnext, or_iff_right hne, not_or]
      rcases Nat.lt_or_ge u (v + nptentries) with hu | hu
      · refine iff_of_false (fun hmem => ?_) fun h => h.1 hu
        have := (bounds_of_mem_path hmem).1
        omega
      · rw [ih (by omega) hu]
        exact (and_iff_right (not_lt.mpr hu)).symm
    · have hnext : M.next d v = v + 1 := by
        rw [next, hvt]
        rfl
      refine iff_of_true ?_ (not_skipped_of_table hvt)
      rcases eq_or_lt_of_le hvu with rfl | hvu
      · exact .inl rfl
      · right
        rw [hnext, ih (by omega) hvu]
        exact not_skipped_succ hvt

/-! ## `deallocuvm` -/

/-- The pages that the pages from `s` to `e` are mapped to. -/
@[irreducible] def mapped (M : Mem) (d s e : ℕ) : Multiset ℕ :=
  ∑ v ∈ Finset.Ico s e, format.named (M.pte d v)

theorem mem_mapped : f ∈ M.mapped d s e ↔
    ∃ v, (s ≤ v ∧ v < e) ∧ present (M.pte d v) = true ∧ pageOf (M.pte d v) = f := by
  simp [mapped, mem_sum, Radix.Format.mem_named]

/-- In `M'` the pages from `s` to `e` have been unmapped and freed. -/
structure Cleared (d s e : ℕ) (M M' : Mem) : Prop where
  table : ∀ j, M'.table d j = M.table d j
  pte : ∀ u < 2 ^ 20,
    M'.pte d u = if (s ≤ u ∧ u < e) ∧ present (M.pte d u) = true then 0 else M.pte d u
  free : (M'.free : Multiset ℕ) = M.mapped d s e + M.free
  held : M.held d = M.mapped d s e + M'.held d
  page : ∀ g ∉ M.nodes d, g ∉ M.mapped d s e → M'.page g = M.page g

theorem Cleared.absent (h : Cleared d s e M M') (hv : v < 2 ^ 20) (hs : s ≤ v) (he : v < e) :
    present (M'.pte d v) = false := by
  rw [h.pte v hv]
  split
  · rfl
  · rename_i hne
    rcases hp : present (M.pte d v)
    · rfl
    · exact absurd ⟨⟨hs, he⟩, hp⟩ hne

theorem Unmapped.cleared {us : List ℕ} (h : Unmapped d us M M') (hus : us.Nodup)
    (hin : ∀ u ∈ us, s ≤ u ∧ u < e)
    (hall : ∀ u, s ≤ u → u < e → present (M.pte d u) = true → u ∈ us) : Cleared d s e M M' := by
  have hsum : (us.map fun u => format.named (M.pte d u)).sum = M.mapped d s e := by
    rw [← sum_toFinset _ hus, mapped]
    refine Finset.sum_subset (fun u hu => Finset.mem_Ico.mpr (hin u (mem_toFinset.mp hu))) ?_
    intro u hu hnot
    obtain ⟨hs, he⟩ := Finset.mem_Ico.mp hu
    rw [present_iff_named]
    rcases hp : present (M.pte d u)
    · rfl
    · exact absurd (mem_toFinset.mpr (hall u hs he hp)) hnot
  refine ⟨h.table, fun u hu => ?_, hsum ▸ h.free, hsum ▸ h.held, fun g hg hgm => ?_⟩
  · rw [h.pte u hu]
    refine if_congr (and_congr_left fun hp => ?_) rfl rfl
    exact ⟨hin u, fun hu => hall u hu.1 hu.2 hp⟩
  · refine h.page g hg fun u hu hgu => hgm ?_
    exact mem_mapped.mpr ⟨u, hin u hu, Radix.Format.mem_named.mp hgu⟩

theorem pgroundup_eq {sz : ℕ} (h : sz ≤ kernbase) : pgroundup sz = pagesBetween 0 sz * pgsize := by
  simp only [pgroundup, pagesBetween, kernbase, pgsize] at *
  omega

/-- The pages that the loop of `deallocuvm` comes to. -/
def deallocPath (M : Mem) (d oldsz newsz : ℕ) : List ℕ :=
  M.path d (pagesBetween 0 oldsz) (2 ^ 32 / pgsize + 1) (pagesBetween 0 newsz)

theorem deallocuvm_eq (hnew : newsz < oldsz) (hold : oldsz ≤ kernbase) :
    deallocuvm L M d oldsz newsz = (do
      let M ← deallocFrom L d oldsz (2 ^ 32 / pgsize + 1) (pagesBetween 0 newsz * pgsize) M
      pure (newsz, M)) := by
  rw [deallocuvm, if_neg (not_le.mpr hnew), pgroundup_eq (hnew.le.trans hold)]

theorem fuel_enough (hold : oldsz ≤ kernbase) : pagesBetween 0 oldsz ≤ v + 2 ^ 32 / pgsize := by
  have h := pagesBetween_le hold
  simp only [userPages, kernbase, pgsize] at h ⊢
  omega

theorem mem_deallocPath (hold : oldsz ≤ kernbase) (hs : pagesBetween 0 newsz ≤ v)
    (he : v < pagesBetween 0 oldsz) (hp : present (M.pte d v) = true) :
    v ∈ M.deallocPath d oldsz newsz ↔ ¬ M.Skipped d (pagesBetween 0 newsz) v := by
  obtain ⟨t, ht⟩ := exists_table hp
  exact mem_path (fuel_enough hold) ht hs he

section Dealloc

variable (hnew : newsz < oldsz) (hold : oldsz ≤ kernbase) (hn : (M.held d).Nodup)

include hnew hold hn

theorem deallocuvm_path
    (hal : ∀ v ∈ M.deallocPath d oldsz newsz, present (M.pte d v) = true →
      L.Allocatable (pageOf (M.pte d v))) :
    ∃ M', deallocuvm L M d oldsz newsz = .ok (newsz, M') ∧
      Unmapped d (M.deallocPath d oldsz newsz) M M' := by
  obtain ⟨M', hrun, hM'⟩ := deallocFrom_ok hold hn (fuel_enough hold) hal
  refine ⟨M', ?_, hM'⟩
  rw [deallocuvm_eq hnew hold, hrun]
  rfl

/-- **`deallocuvm` clears its range if no page that is mapped there is skipped.** -/
theorem deallocuvm_ok
    (h : ∀ v, pagesBetween 0 newsz ≤ v → v < pagesBetween 0 oldsz → present (M.pte d v) = true →
      L.Allocatable (pageOf (M.pte d v)) ∧ ¬ M.Skipped d (pagesBetween 0 newsz) v) :
    ∃ M', deallocuvm L M d oldsz newsz = .ok (newsz, M') ∧
      Cleared d (pagesBetween 0 newsz) (pagesBetween 0 oldsz) M M' := by
  obtain ⟨M', hrun, hM'⟩ := deallocuvm_path (L := L) hnew hold hn fun v hv =>
    fun hp => (h v (bounds_of_mem_path hv).1 (bounds_of_mem_path hv).2 hp).1
  refine ⟨M', hrun, hM'.cleared (path_increasing _ _).nodup (fun u hu => bounds_of_mem_path hu) ?_⟩
  intro u hs he hp
  exact (mem_deallocPath hold hs he hp).mpr (h u hs he hp).2

end Dealloc

/-- `deallocuvm` returns, its address does not wrap, no page of the range is mapped afterwards,
each page that was mapped there has been given to `kfree` once, and nothing else has changed. -/
def DeallocExact (L : Layout) (M : Mem) (d oldsz newsz : ℕ) : Prop :=
  (∀ v ∈ M.deallocPath d oldsz newsz, M.next d v * pgsize < 2 ^ 32) ∧
  ∃ M', deallocuvm L M d oldsz newsz = .ok (newsz, M') ∧
    (∀ v, pgroundup newsz ≤ v * pgsize → v * pgsize < oldsz → present (M'.pte d v) = false) ∧
    (M'.free : Multiset ℕ) = M.mapped d (pagesBetween 0 newsz) (pagesBetween 0 oldsz) + M.free ∧
    ∀ v < 2 ^ 20, ¬ (pgroundup newsz ≤ v * pgsize ∧ v * pgsize < oldsz) → M'.pte d v = M.pte d v

theorem pgroundup_le_iff {sz : ℕ} (h : sz ≤ kernbase) :
    pgroundup sz ≤ v * pgsize ↔ pagesBetween 0 sz ≤ v := by
  rw [pgroundup_eq h]
  exact Nat.mul_le_mul_right_iff (by decide)

theorem next_mul_pgsize_lt (hold : oldsz ≤ kernbase) (hv : v ∈ M.deallocPath d oldsz newsz) :
    M.next d v * pgsize < 2 ^ 32 := by
  have h := (bounds_of_mem_path hv).2.trans_le (pagesBetween_le hold)
  have hle : M.next d v ≤ v + nptentries := by
    rw [next]
    split
    · simp only [nptentries]
      omega
    · exact le_rfl
  simp only [userPages, kernbase, pgsize, nptentries] at h hle ⊢
  omega

theorem not_skipped_of_exact (hnew : newsz < oldsz) (hold : oldsz ≤ kernbase)
    (hn : (M.held d).Nodup) (h : DeallocExact L M d oldsz newsz) (hs : pagesBetween 0 newsz ≤ v)
    (he : v < pagesBetween 0 oldsz) (hp : present (M.pte d v) = true) :
    L.Allocatable (pageOf (M.pte d v)) ∧ ¬ M.Skipped d (pagesBetween 0 newsz) v := by
  obtain ⟨-, M', hrun, hgone, -, -⟩ := h
  have hvu : v < 2 ^ 20 := userPages_lt (he.trans_le (pagesBetween_le hold))
  have hal : ∀ u ∈ M.deallocPath d oldsz newsz, present (M.pte d u) = true →
      L.Allocatable (pageOf (M.pte d u)) := by
    intro u hu hpu
    by_contra hna
    rw [deallocuvm_eq hnew hold, deallocFrom_kfree hold hn hu hpu hna] at hrun
    cases hrun
  obtain ⟨M'', hrun', hM''⟩ := deallocuvm_path (L := L) hnew hold hn hal
  obtain rfl : M'' = M' := by
    rw [hrun] at hrun'
    exact ((Prod.mk.inj (Except.ok.inj hrun')).2).symm
  have hmem : v ∈ M.deallocPath d oldsz newsz := by
    by_contra hnot
    have habs := hgone v ((pgroundup_le_iff (hnew.le.trans hold)).mpr hs) (mul_pgsize_lt_iff.mpr he)
    rw [hM''.pte v hvu, if_neg (fun h => hnot h.1), hp] at habs
    cases habs
  exact ⟨hal v hmem hp, (mem_deallocPath hold hs he hp).mp hmem⟩

/-- **`deallocuvm` is exact if and only if every page that is mapped in its range is one that
`kfree` takes, and none of them is skipped.** -/
theorem deallocuvm_exact_iff (L : Layout) (M : Mem) (d oldsz newsz : ℕ) (hnew : newsz < oldsz)
    (hold : oldsz ≤ kernbase) (hn : (M.held d).Nodup) :
    DeallocExact L M d oldsz newsz ↔
      ∀ v, pagesBetween 0 newsz ≤ v → v < pagesBetween 0 oldsz → present (M.pte d v) = true →
        L.Allocatable (pageOf (M.pte d v)) ∧ ¬ M.Skipped d (pagesBetween 0 newsz) v := by
  constructor
  · intro h v hs he hp
    exact not_skipped_of_exact hnew hold hn h hs he hp
  · intro h
    obtain ⟨M', hrun, hM'⟩ := deallocuvm_ok hnew hold hn h
    have hle := pagesBetween_le hold
    refine ⟨fun v hv => next_mul_pgsize_lt hold hv, M', hrun, ?_, hM'.free, ?_⟩
    · intro v hs he
      rw [pgroundup_le_iff (hnew.le.trans hold)] at hs
      rw [mul_pgsize_lt_iff] at he
      exact hM'.absent (userPages_lt (he.trans_le hle)) hs he
    · intro v hv hout
      rw [pgroundup_le_iff (hnew.le.trans hold), mul_pgsize_lt_iff] at hout
      rw [hM'.pte v hv, if_neg fun h => hout h.1]

/-- A place for the kernel. -/
def someLayout : Layout where
  data := 0x80108000
  kend := 0x80115000
  text := by decide
  aligned := by decide
  ordered := by decide
  fits := by decide

/-- A directory with one page table, that of the second 4 MB. -/
def gapDir : Mem := (({ page := fun _ => Bytes.zero, free := [] } : Mem).zero 1000).graft 1000 1 1001

/-- The same with a page, the first of the 4 MB. -/
def gapMem : Mem := gapDir.setWord 1001 (1024 % nptentries) (entry 1002 (pteW ||| pteU))

theorem gapDir_table (j : ℕ) : gapDir.table 1000 j = if j = 1 then some 1001 else none := by
  rw [gapDir, table_graft (by decide) (by decide) (by rw [nodes_zero]; decide), table_zero]

theorem gapDir_nodes : gapDir.nodes 1000 = {1001, 1000} := by
  rw [nodes_update (M := ({ page := fun _ => Bytes.zero, free := [] } : Mem).zero 1000) (j := 1)
    (t := 1001) (by decide) table_zero fun k _ => by rw [gapDir_table, table_zero], nodes_zero]
  rfl

theorem gapDir_pte {v : ℕ} (hv : v < 2 ^ 20) : gapDir.pte 1000 v = 0 := by
  rw [gapDir, pte_graft (by decide) (by decide) (by rw [nodes_zero]; decide)
    (by rw [nodes_zero]; decide) table_zero hv, pte_zero]

theorem gapMem_table (j : ℕ) : gapMem.table 1000 j = if j = 1 then some 1001 else none := by
  rw [gapMem, table_setWord (by rw [gapDir_nodes]; decide) (by decide) (gapDir_table _), gapDir_table]

theorem gapMem_pte {v : ℕ} (hv : v < 2 ^ 20) :
    gapMem.pte 1000 v = if v = 1024 then entry 1002 (pteW ||| pteU) else 0 := by
  rw [gapMem, pte_setWord (by rw [gapDir_nodes]; decide) (by decide) (gapDir_table _) (by decide) hv,
    gapDir_pte hv]

theorem gapMem_held : gapMem.held 1000 = {1001, 1000, 1002} := by
  have hnodes : gapMem.nodes 1000 = gapDir.nodes 1000 :=
    nodes_congr fun j _ => (gapMem_table j).trans (gapDir_table j).symm
  have hpages : gapMem.pages 1000 = {1002} := by
    rw [pages_add (M := gapDir) (v := 1024) (x := entry 1002 (pteW ||| pteU)) (by decide)
      (by rw [gapDir_pte (by decide)]; rfl) present_entry (pageOf_entry (by decide)) fun u hu => ?_]
    · rw [pages, Radix.Format.leaves_eq_zero fun v hv => gapDir_pte (userPages_lt hv)]
      rfl
    · rw [gapMem_pte (userPages_lt hu), gapDir_pte (userPages_lt hu)]
  rw [held, hnodes, gapDir_nodes, hpages]
  rfl

/-- From the second page on, the page table of the first 4 MB is missing, and the loop steps
over the first page of the second 4 MB. -/
theorem deallocuvm_leaves_page :
    (4096 < 0x401000 ∧ 0x401000 ≤ kernbase ∧ (gapMem.held 1000).Nodup ∧
      ∀ f ∈ gapMem.pages 1000, someLayout.Allocatable f) ∧
    ¬ DeallocExact someLayout gapMem 1000 0x401000 4096 := by
  have hn : (gapMem.held 1000).Nodup := by
    rw [gapMem_held]
    decide
  have hal : ∀ f ∈ gapMem.held 1000, someLayout.Allocatable f := by
    rw [gapMem_held]
    decide
  refine ⟨⟨by decide, by decide, hn, fun f hf => hal f (mem_add.mpr (.inr hf))⟩, fun h => ?_⟩
  have hp : present (gapMem.pte 1000 1024) = true := by
    rw [gapMem_pte (by decide), if_pos rfl]
    exact present_entry
  refine (not_skipped_of_exact (by decide) (by decide) hn h (v := 1024) (by decide) (by decide) hp).2
    ⟨by decide, by decide, fun j _ hj => ?_⟩
  rw [gapMem_table, if_neg]
  exact Nat.ne_of_lt hj

/-- From address `0` on the page is found. -/
theorem deallocuvm_exact_from_zero : DeallocExact someLayout gapMem 1000 0x401000 0 := by
  refine (deallocuvm_exact_iff someLayout gapMem 1000 0x401000 0 (by decide) (by decide) ?_).mpr
    fun v _ hv hp => ⟨?_, ?_⟩
  · rw [gapMem_held]
    decide
  · have hv := hv.trans_le (pagesBetween_le (by decide))
    have hmem : pageOf (gapMem.pte 1000 v) ∈ gapMem.held 1000 :=
      mem_add.mpr (.inr (mem_pages.mpr ⟨v, hv, hp, rfl⟩))
    rw [gapMem_held] at hmem
    revert hmem
    generalize pageOf (gapMem.pte 1000 v) = f
    revert f
    decide
  · rintro ⟨-, hlt, -⟩
    exact Nat.not_lt_zero _ hlt

/-! ## `freevm` -/

theorem freeTables_ok {is : List ℕ}
    (h : ∀ i ∈ is, ∀ f ∈ format.named (M.word d i), f ≠ d ∧ L.Allocatable f) :
    ∃ M', freeTables L d is M = .ok M' ∧
      (M'.free : Multiset ℕ) = (is.map fun i => format.named (M.word d i)).sum + M.free ∧
      ∀ g, (∀ i ∈ is, g ∉ format.named (M.word d i)) → M'.page g = M.page g := by
  induction is generalizing M with
  | nil => exact ⟨M, rfl, by simp, fun _ _ => rfl⟩
  | cons i is ih =>
    rw [freeTables]
    rcases hp : present (M.word d i)
    · obtain ⟨M', hrun, hfree, hpage⟩ := ih fun k hk => h k (mem_cons_of_mem i hk)
      refine ⟨M', hrun, ?_, fun g hg => hpage g fun k hk => hg k (mem_cons_of_mem i hk)⟩
      rw [hfree, map_cons, sum_cons, present_iff_named.mpr hp, zero_add]
    · obtain ⟨hne, hal⟩ := h i mem_cons_self _ (Radix.Format.mem_named.mpr ⟨hp, rfl⟩)
      have hword : (M.freed (pageOf (M.word d i))).word d = M.word d :=
        word_congr (page_freed_of_ne hne.symm)
      obtain ⟨M', hrun, hfree, hpage⟩ := ih (M := M.freed (pageOf (M.word d i))) fun k hk => by
        rw [hword]
        exact h k (mem_cons_of_mem i hk)
      rw [hword] at hfree hpage
      refine ⟨M', ?_, ?_, fun g hg => ?_⟩
      · rw [if_pos rfl, kfree_eq hal]
        exact hrun
      · rw [hfree, map_cons, sum_cons]
        have hnamed : format.named (M.word d i) = {pageOf (M.word d i)} := if_pos hp
        rw [hnamed, freed, ← cons_coe, ← singleton_add]
        abel
      · rw [hpage g fun k hk => hg k (mem_cons_of_mem i hk), page_freed_of_ne]
        rintro rfl
        exact hg i mem_cons_self (Radix.Format.mem_named.mpr ⟨hp, rfl⟩)

theorem nodes_eq :
    M.nodes d = {d} + ((List.range nptentries).map fun i => format.named (M.word d i)).sum :=
  Radix.Format.nodes_eq

theorem pages_eq_mapped : M.pages d = M.mapped d 0 userPages := by
  rw [pages, Radix.Format.leaves, mapped, Finset.range_eq_Ico]
  rfl

theorem not_skipped_of_aligned (h : s % nptentries = 0) : ¬ M.Skipped d s u := by
  rintro ⟨-, hlt, -⟩
  omega

/-- **`freevm` gives back all the pages that the directory holds.** -/
theorem freevm_ok (hn : (M.held d).Nodup) (hal : ∀ f ∈ M.held d, L.Allocatable f) :
    ∃ M', M.freevm L (some d) = .ok M' ∧ (M'.free : Multiset ℕ) = M.held d + M.free ∧
      ∀ g ∉ M.held d, M'.page g = M.page g := by
  have hpages : pagesBetween 0 kernbase = userPages := rfl
  obtain ⟨M₁, hrun₁, hM₁⟩ := deallocuvm_ok (L := L) (show 0 < kernbase by decide) le_rfl hn
    fun v _ hv hp => ⟨hal _ (mem_add.mpr (.inr (mem_pages.mpr ⟨v, hv, hp, rfl⟩))),
      not_skipped_of_aligned rfl⟩
  rw [hpages, show pagesBetween 0 0 = 0 from rfl] at hM₁
  have hnodes : M₁.nodes d = M.nodes d := nodes_congr fun j _ => hM₁.table j
  have hn₁ : (M₁.nodes d).Nodup := hnodes ▸ nodes_nodup hn
  have htables : ∀ i ∈ List.range nptentries, ∀ f ∈ format.named (M₁.word d i),
      f ≠ d ∧ L.Allocatable f := by
    intro i hi f hf
    have htab : M₁.table d i = some f := Radix.Format.child_eq_some.mpr hf
    have hi := mem_range.mp hi
    refine ⟨Radix.Format.child_ne_root (F := format) (j := i) hn₁ hi htab, hal f ?_⟩
    exact mem_add.mpr (.inl (hnodes ▸ mem_nodes.mpr (.inr ⟨i, hi, htab⟩)))
  obtain ⟨M₂, hrun₂, hfree₂, hpage₂⟩ := freeTables_ok htables
  have hd : L.Allocatable d := hal d (mem_add.mpr (.inl root_mem))
  refine ⟨M₂.freed d, ?_, ?_, fun g hg => ?_⟩
  · simp only [freevm, hrun₁, hrun₂, ok_bind]
    exact kfree_eq hd
  · rw [freed, ← cons_coe, hfree₂, hM₁.free, held, pages_eq_mapped, ← hnodes, nodes_eq,
      ← singleton_add]
    abel
  · obtain ⟨hgn, hgp⟩ := not_or.mp (mem_add.not.mp hg)
    have hgd : g ≠ d := fun h => hgn (h ▸ root_mem)
    rw [page_freed_of_ne hgd, hpage₂, hM₁.page g hgn (pages_eq_mapped ▸ hgp)]
    intro i hi hgi
    refine hgn (hnodes ▸ mem_nodes.mpr (.inr ⟨i, mem_range.mp hi, ?_⟩))
    exact Radix.Format.child_eq_some.mpr hgi

end Xv6.Vm.Mem
