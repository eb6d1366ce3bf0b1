import Xv6.Vm.Unmap

/-!
# Mapping pages

`mappages` takes a page from the free list for each page table that is missing.

* `mapPage_spec` --- one step of the loop either finds no page for a page table, or enters the
  page (`Entered`).
* `mapFrom_spec` --- so the loop either fails with an empty free list and a page table missing,
  or enters all pages (`Ranged`).  How many pages it takes is not counted along the way: the
  pages on the free list and those of the directory are the same in sum, so that it is enough
  to know which page tables there are in the end.
-/

namespace Xv6.Vm.Mem

open List
open Multiset (coe_card cons_coe mem_add mem_coe nodup_add singleton_add)

variable {L : Layout} {M M' M'' : Mem} {d t u v j f g n perm x : ℕ}

/-! ## Ownership -/

/-- The free list and the directory hold distinct pages, and `kfree` takes all of them. -/
structure Sound (L : Layout) (M : Mem) (d : ℕ) : Prop where
  nodup : ((M.free : Multiset ℕ) + M.held d).Nodup
  takes : ∀ f ∈ (M.free : Multiset ℕ) + M.held d, L.Allocatable f

section

variable (h : Sound L M d)
include h

theorem Sound.of_eq (he : (M'.free : Multiset ℕ) + M'.held d = M.free + M.held d) : Sound L M' d where
  nodup := he ▸ h.nodup
  takes := he ▸ h.takes

theorem Sound.held_nodup : (M.held d).Nodup := (nodup_add.mp h.nodup).2.1

theorem Sound.nodes_nodup : (M.nodes d).Nodup := Mem.nodes_nodup h.held_nodup

theorem Sound.free_nodup : M.free.Nodup := (nodup_add.mp h.nodup).1

theorem Sound.notMem_held (hf : f ∈ M.free) : f ∉ M.held d :=
  Multiset.disjoint_left.mp (nodup_add.mp h.nodup).2.2 (mem_coe.mpr hf)

theorem Sound.notMem_nodes (hf : f ∈ M.free) : f ∉ M.nodes d :=
  fun hf' => h.notMem_held hf (mem_add.mpr (.inl hf'))

theorem Sound.takes_free (hf : f ∈ M.free) : L.Allocatable f :=
  h.takes f (mem_add.mpr (.inl (mem_coe.mpr hf)))

theorem Sound.takes_held (hf : f ∈ M.held d) : L.Allocatable f :=
  h.takes f (mem_add.mpr (.inr hf))

end

/-- The pages of the free list, the directory and its page tables are distinct, and the free ones
have an address of 32 bits. -/
structure Distinct (M : Mem) (d : ℕ) : Prop where
  nodup : ((M.free : Multiset ℕ) + M.nodes d).Nodup
  lt : ∀ f ∈ M.free, f < 2 ^ 20

theorem Sound.distinct (h : Sound L M d) : Distinct M d where
  nodup := by
    have hn := h.nodup
    rw [held, ← add_assoc] at hn
    exact (nodup_add.mp hn).1
  lt _ hf := (h.takes_free hf).lt

theorem Distinct.nodes_nodup (h : Distinct M d) : (M.nodes d).Nodup := (nodup_add.mp h.nodup).2.1

theorem Distinct.notMem_nodes (h : Distinct M d) (hf : f ∈ M.free) : f ∉ M.nodes d :=
  Multiset.disjoint_left.mp (nodup_add.mp h.nodup).2.2 (mem_coe.mpr hf)

/-! ## One page -/

/-- In `M'` the entry for page `v` is `x`, and a page table has come if there was none. -/
structure Entered (d v x : ℕ) (M M' : Mem) : Prop where
  suffix : M'.free <:+ M.free
  total : (M'.free : Multiset ℕ) + M'.nodes d = M.free + M.nodes d
  pte : ∀ u < 2 ^ 20, M'.pte d u = if u = v then x else M.pte d u
  keeps : ∀ j t, M.table d j = some t → M'.table d j = some t
  others : ∀ j, j ≠ v / nptentries → M'.table d j = M.table d j
  has : (M'.table d (v / nptentries)).isSome
  page : ∀ g ∉ M.free, g ∉ M.nodes d → M'.page g = M.page g
  length : M'.free.length + (if (M.table d (v / nptentries)).isSome then 0 else 1) = M.free.length

theorem kalloc_cons {fs : List ℕ} (h : M.free = f :: fs) :
    M.kalloc = (some f, { M with free := fs }) := by
  rw [kalloc, h]

theorem kalloc_nil (h : M.free = []) : M.kalloc = (none, M) := by
  rw [kalloc, h]

theorem walkAlloc_some (hv : v < 2 ^ 20) (ht : M.table d (v / nptentries) = some t) :
    M.walkAlloc d (v * pgsize) = (some (t, v % nptentries), M) := by
  rw [walkAlloc, walk_eq hv, ht]
  rfl

theorem walkAlloc_nil (hv : v < 2 ^ 20) (ht : M.table d (v / nptentries) = none)
    (hfree : M.free = []) : M.walkAlloc d (v * pgsize) = (none, M) := by
  rw [walkAlloc, walk_eq hv, ht, kalloc_nil hfree]
  rfl

theorem walkAlloc_cons (hv : v < 2 ^ 20) (ht : M.table d (v / nptentries) = none) {fs : List ℕ}
    (hfree : M.free = t :: fs) :
    M.walkAlloc d (v * pgsize) =
      (some (t, v % nptentries), ({ M with free := fs } : Mem).graft d (v / nptentries) t) := by
  rw [walkAlloc, walk_eq hv, ht, kalloc_cons hfree, pdx_eq hv, ptx_eq]
  rfl

theorem mapPage_eq {pa : ℕ} (hwalk : M.walkAlloc d (v * pgsize) = (some (t, v % nptentries), M'))
    (ht : M'.table d (v / nptentries) = some t) (habs : present (M'.pte d v) = false) :
    M.mapPage d (v * pgsize) pa perm =
      .ok (true, M'.setWord t (v % nptentries) (pa ||| perm ||| pteP)) := by
  rw [mapPage, hwalk]
  change (if present (M'.word t (v % nptentries)) = true then _ else _) = _
  rw [← pte_of_table ht, habs]
  rfl

theorem mapPage_spec (hs : Distinct M d) (hv : v < 2 ^ 20) (habs : present (M.pte d v) = false)
    (hf : f < 2 ^ 20) (hp : perm < pgsize) :
    (M.table d (v / nptentries) = none ∧ M.free = [] ∧
      M.mapPage d (v * pgsize) (f * pgsize) perm = .ok (false, M)) ∨
    ∃ M', M.mapPage d (v * pgsize) (f * pgsize) perm = .ok (true, M') ∧
      Entered d v (entry f perm) M M' := by
  have hlt := entry_lt hf hp
  rcases ht : M.table d (v / nptentries) with _ | t
  · rcases hfree : M.free with _ | ⟨t, fs⟩
    · refine .inl ⟨rfl, rfl, ?_⟩
      rw [mapPage, walkAlloc_nil hv ht hfree]
    · right
      have hmem : t ∈ M.free := by
        rw [hfree]
        exact mem_cons_self
      have hj := div_nptentries_lt hv
      have htl := hs.lt t hmem
      have htn : t ∉ M.nodes d := hs.notMem_nodes hmem
      let M₁ : Mem := ({ M with free := fs } : Mem).graft d (v / nptentries) t
      have htable (k : ℕ) : M₁.table d k = if k = v / nptentries then some t else M.table d k :=
        table_graft (M := { M with free := fs }) hj htl htn
      have hpte : ∀ u < 2 ^ 20, M₁.pte d u = M.pte d u := fun u hu =>
        pte_graft (M := { M with free := fs }) hj htl htn hs.nodes_nodup ht hu
      have hnodes : M₁.nodes d = t ::ₘ M.nodes d := nodes_update hj ht fun k _ => htable k
      have hn₁ : (M₁.nodes d).Nodup := by
        rw [hnodes]
        exact Multiset.nodup_cons.mpr ⟨htn, hs.nodes_nodup⟩
      have ht₁ : M₁.table d (v / nptentries) = some t := by rw [htable, if_pos rfl]
      have htab (k : ℕ) : (M₁.setWord t (v % nptentries) (entry f perm)).table d k =
          if k = v / nptentries then some t else M.table d k := by
        rw [table_setWord hn₁ hv ht₁, htable]
      refine ⟨_, mapPage_eq (walkAlloc_cons hv ht hfree) ht₁ (by rwa [hpte v hv]), ?_⟩
      refine ⟨hfree ▸ suffix_cons t fs, ?_, ?_, ?_, ?_, ?_, ?_, ?_⟩
      · change (fs : Multiset ℕ) + (M₁.setWord t (v % nptentries) (entry f perm)).nodes d = _
        rw [nodes_congr (M := M₁) fun k _ => by rw [htab, htable], hnodes, hfree, ← cons_coe,
          Multiset.add_cons, Multiset.cons_add]
      · intro u hu
        rw [← entry, pte_setWord hn₁ hv ht₁ hlt hu, hpte u hu]
      · intro k s hk
        rw [← entry, htab, if_neg, hk]
        rintro rfl
        rw [ht] at hk
        cases hk
      · intro k hk
        rw [← entry, htab, if_neg hk]
      · rw [← entry, htab, if_pos rfl]
        rfl
      · intro g hg hgn
        have hgt : g ≠ t := by
          rintro rfl
          exact hg hmem
        have hgd : g ≠ d := by
          rintro rfl
          exact hgn root_mem
        rw [page_setWord_of_ne hgt]
        exact page_graft_of_ne hgd hgt
      · rw [ht, hfree]
        rfl
  · right
    refine ⟨_, mapPage_eq (walkAlloc_some hv ht) ht habs, suffix_rfl, ?_, ?_, ?_, ?_, ?_, ?_, ?_⟩
    · rw [nodes_congr (M := M) fun k _ => table_setWord hs.nodes_nodup hv ht]
      rfl
    · exact fun u hu => pte_setWord hs.nodes_nodup hv ht hlt hu
    · intro k s hk
      rwa [table_setWord hs.nodes_nodup hv ht]
    · exact fun k _ => table_setWord hs.nodes_nodup hv ht
    · rw [table_setWord hs.nodes_nodup hv ht, ht]
      rfl
    · intro g _ hgn
      refine page_setWord_of_ne ?_
      rintro rfl
      exact hgn (table_mem hv ht)
    · rw [ht]
      rfl

/-! ## A range of pages -/

/-- In `M'` nothing has been entered but pages in `P`, and page tables for them. -/
structure Within (d : ℕ) (P : ℕ → Prop) (M M' : Mem) : Prop where
  suffix : M'.free <:+ M.free
  total : (M'.free : Multiset ℕ) + M'.nodes d = M.free + M.nodes d
  pte : ∀ u < 2 ^ 20, ¬ P u → M'.pte d u = M.pte d u
  keeps : ∀ j t, M.table d j = some t → M'.table d j = some t
  others : ∀ j, (∀ u, P u → u / nptentries ≠ j) → M'.table d j = M.table d j
  page : ∀ g ∉ M.free, g ∉ M.nodes d → M'.page g = M.page g

section Within

variable {P Q : ℕ → Prop}

theorem Within.refl (M : Mem) : Within d P M M where
  suffix := suffix_rfl
  total := rfl
  pte _ _ _ := rfl
  keeps _ _ h := h
  others _ _ := rfl
  page _ _ _ := rfl

theorem Within.mono (h : Within d P M M') (hPQ : ∀ u, P u → Q u) : Within d Q M M' where
  suffix := h.suffix
  total := h.total
  pte u hu hq := h.pte u hu fun hp => hq (hPQ u hp)
  keeps := h.keeps
  others j hj := h.others j fun u hu => hj u (hPQ u hu)
  page := h.page

theorem notMem_of_total (hsuf : M'.free <:+ M.free)
    (ht : (M'.free : Multiset ℕ) + M'.nodes d = M.free + M.nodes d) (hg : g ∉ M.free)
    (hgn : g ∉ M.nodes d) : g ∉ M'.free ∧ g ∉ M'.nodes d := by
  refine ⟨fun h => hg (hsuf.subset h), fun h => ?_⟩
  have hmem : g ∈ (M.free : Multiset ℕ) + M.nodes d := ht ▸ mem_add.mpr (.inr h)
  rcases mem_add.mp hmem with h | h
  · exact hg (mem_coe.mp h)
  · exact hgn h

theorem Within.trans (h : Within d P M M') (h' : Within d P M' M'') : Within d P M M'' where
  suffix := h'.suffix.trans h.suffix
  total := h'.total.trans h.total
  pte u hu hp := by rw [h'.pte u hu hp, h.pte u hu hp]
  keeps j t hj := h'.keeps j t (h.keeps j t hj)
  others j hj := by rw [h'.others j hj, h.others j hj]
  page g hg hgn := by
    obtain ⟨hg', hgn'⟩ := notMem_of_total h.suffix h.total hg hgn
    rw [h'.page g hg' hgn', h.page g hg hgn]

theorem Within.isSome (h : Within d P M M') (hj : (M.table d j).isSome) : (M'.table d j).isSome := by
  obtain ⟨t, ht⟩ := Option.isSome_iff_exists.mp hj
  rw [h.keeps j t ht]
  rfl

theorem Entered.within (h : Entered d v x M M') (hv : P v) : Within d P M M' where
  suffix := h.suffix
  total := h.total
  pte u hu hout := by
    rw [h.pte u hu, if_neg]
    rintro rfl
    exact hout hv
  keeps := h.keeps
  others j hj := h.others j (hj v hv).symm
  page := h.page

theorem Within.distinct (h : Within d P M M') (hs : Distinct M d) : Distinct M' d where
  nodup := h.total ▸ hs.nodup
  lt f hf := hs.lt f (h.suffix.subset hf)

theorem Within.held_total (h : Within d P M M') (hP : ∀ u, P u → userPages ≤ u) :
    (M'.free : Multiset ℕ) + M'.held d = M.free + M.held d := by
  have hpages : M'.pages d = M.pages d := pages_congr fun u hu =>
    h.pte u (userPages_lt hu) fun hp => not_lt.mpr (hP u hp) hu
  rw [held, held, hpages, ← add_assoc, h.total, add_assoc]

end Within

/-- **The loop of `mappages`**: it fails with an empty free list and a missing page table, or
enters all pages. -/
theorem mapFrom_spec (hs : Distinct M d) (hv : v + n < 2 ^ 20)
    (habs : ∀ u, v ≤ u → u ≤ v + n → present (M.pte d u) = false) (hf : f < 2 ^ 20)
    (hp : perm < pgsize) :
    (∃ M', mapFrom d perm n (v * pgsize) (f * pgsize) M = .ok (false, M') ∧
      Within d (fun u => v ≤ u ∧ u ≤ v + n) M M' ∧ M'.free = [] ∧
      ∃ u, (v ≤ u ∧ u ≤ v + n) ∧ M'.table d (u / nptentries) = none) ∨
    ∃ M', mapFrom d perm n (v * pgsize) (f * pgsize) M = .ok (true, M') ∧
      Within d (fun u => v ≤ u ∧ u ≤ v + n) M M' ∧
      ∀ u, v ≤ u ∧ u ≤ v + n →
        M'.pte d u = entry ((f + (u - v)) % 2 ^ 20) perm ∧ (M'.table d (u / nptentries)).isSome := by
  induction n generalizing v f M with
  | zero =>
    rcases mapPage_spec (v := v) (f := f) hs hv (habs v le_rfl le_rfl) hf hp with
      ⟨ht, hfree, hrun⟩ | ⟨M', hrun, hM'⟩
    · exact .inl ⟨M, hrun, .refl M, hfree, v, ⟨le_rfl, le_rfl⟩, ht⟩
    · refine .inr ⟨M', hrun, hM'.within ⟨le_rfl, le_rfl⟩, fun u hu => ?_⟩
      obtain rfl : u = v := by omega
      refine ⟨?_, hM'.has⟩
      rw [hM'.pte u hv, if_pos rfl, Nat.sub_self, add_zero, Nat.mod_eq_of_lt hf]
  | succ n ih =>
    rw [mapFrom]
    rcases mapPage_spec (v := v) (f := f) hs (by omega) (habs v le_rfl (by omega)) hf hp with
      ⟨ht, hfree, hrun⟩ | ⟨M₁, hrun, hM₁⟩
    · rw [hrun]
      exact .inl ⟨M, rfl, .refl M, hfree, v, ⟨le_rfl, by omega⟩, ht⟩
    · have ha : (v * pgsize + pgsize) % 2 ^ 32 = (v + 1) * pgsize := by
        simp only [pgsize]
        omega
      have hpa : (f * pgsize + pgsize) % 2 ^ 32 = (f + 1) % 2 ^ 20 * pgsize := by
        simp only [pgsize]
        omega
      have hin : Within d (fun u => v ≤ u ∧ u ≤ v + (n + 1)) M M₁ := hM₁.within ⟨le_rfl, by omega⟩
      have hs₁ : Distinct M₁ d := hin.distinct hs
      have habs₁ : ∀ u, v + 1 ≤ u → u ≤ v + 1 + n → present (M₁.pte d u) = false := by
        intro u hu hu'
        rw [hM₁.pte u (by omega), if_neg (by omega)]
        exact habs u (by omega) (by omega)
      simp only [hrun, ok_bind, if_true, ha, hpa]
      rcases ih (v := v + 1) hs₁ (by omega) habs₁ (Nat.mod_lt _ (by decide)) with
        ⟨M', hrun', hM', hfree, u, hu, hnone⟩ | ⟨M', hrun', hM', hall⟩
      · exact .inl ⟨M', hrun', hin.trans (hM'.mono fun u hu => by omega), hfree, u, by omega, hnone⟩
      · refine .inr ⟨M', hrun', hin.trans (hM'.mono fun u hu => by omega), fun u hu => ?_⟩
        rcases eq_or_lt_of_le hu.1 with rfl | hlt
        · refine ⟨?_, hM'.isSome hM₁.has⟩
          rw [hM'.pte v (by omega) (by omega), hM₁.pte v (by omega), if_pos rfl, Nat.sub_self,
            add_zero, Nat.mod_eq_of_lt hf]
        · obtain ⟨hpte, hsome⟩ := hall u (by omega)
          rw [Nat.mod_add_mod, show f + 1 + (u - (v + 1)) = f + (u - v) by omega] at hpte
          exact ⟨hpte, hsome⟩

/-! ## The kernel's mappings -/

/-- The size of the range that an entry of `kmap` maps. -/
def Kmap.size (k : Kmap) : ℕ := (k.physEnd + 2 ^ 32 - k.physStart) % 2 ^ 32

/-- The pages that an entry of `kmap` maps. -/
def Kmap.Covers (k : Kmap) (u : ℕ) : Prop := k.virt ≤ u * pgsize ∧ u * pgsize < k.virt + k.size

/-- The entry for page `u`. -/
def Kmap.entry (k : Kmap) (u : ℕ) : ℕ :=
  Vm.entry ((k.physStart + (u * pgsize - k.virt)) / pgsize) k.perm

/-- The range is one of whole pages above `KERNBASE`. -/
structure Kmap.Ok (k : Kmap) : Prop where
  virt : k.virt % pgsize = 0
  phys : k.physStart % pgsize = 0
  whole : k.size % pgsize = 0
  pos : 0 < k.size
  above : kernbase ≤ k.virt
  virtFits : k.virt + k.size ≤ 2 ^ 32
  physFits : k.physStart + k.size ≤ 2 ^ 32
  perm : k.perm < pgsize

theorem mappages_eq (hv : v + n < 2 ^ 20) {pa : ℕ} :
    M.mappages d (v * pgsize) ((n + 1) * pgsize) pa perm = mapFrom d perm n (v * pgsize) pa M := by
  have ha : pgrounddown (v * pgsize) = v * pgsize := by
    simp only [pgrounddown, pgsize]
    omega
  have hn : (pgrounddown ((v * pgsize + (n + 1) * pgsize + (2 ^ 32 - 1)) % 2 ^ 32) + 2 ^ 32 -
      v * pgsize) % 2 ^ 32 / pgsize = n := by
    simp only [pgrounddown, pgsize]
    omega
  rw [mappages, ha, hn]

theorem Kmap.covers_iff {k : Kmap} (hk : k.Ok) (u : ℕ) :
    k.Covers u ↔ k.virt / pgsize ≤ u ∧ u ≤ k.virt / pgsize + (k.size / pgsize - 1) := by
  have h1 := hk.virt
  have h2 := hk.whole
  have h3 := hk.pos
  rw [Kmap.Covers]
  simp only [pgsize] at *
  omega

theorem mappages_kmap {k : Kmap} (hk : k.Ok) (hs : Sound L M d)
    (habs : ∀ u, k.Covers u → present (M.pte d u) = false) :
    (∃ M', M.mappages d k.virt k.size k.physStart k.perm = .ok (false, M') ∧
      Within d k.Covers M M' ∧ M'.free = [] ∧
      ∃ u, k.Covers u ∧ M'.table d (u / nptentries) = none) ∨
    ∃ M', M.mappages d k.virt k.size k.physStart k.perm = .ok (true, M') ∧ Within d k.Covers M M' ∧
      ∀ u, k.Covers u → M'.pte d u = k.entry u ∧ (M'.table d (u / nptentries)).isSome := by
  have hcov := Kmap.covers_iff hk
  have h1 := hk.virt
  have h2 := hk.phys
  have h3 := hk.whole
  have h4 := hk.pos
  have h5 := hk.above
  have h6 := hk.virtFits
  have h7 := hk.physFits
  have hvirt : k.virt = k.virt / pgsize * pgsize := by
    simp only [pgsize] at *
    omega
  have hphys : k.physStart = k.physStart / pgsize * pgsize := by
    simp only [pgsize] at *
    omega
  have hsize : k.size = (k.size / pgsize - 1 + 1) * pgsize := by
    simp only [pgsize] at *
    omega
  have hv : k.virt / pgsize + (k.size / pgsize - 1) < 2 ^ 20 := by
    simp only [pgsize] at *
    omega
  have hf : k.physStart / pgsize < 2 ^ 20 := by
    simp only [pgsize] at *
    omega
  have hentry : ∀ u, k.Covers u →
      k.entry u = entry ((k.physStart / pgsize + (u - k.virt / pgsize)) % 2 ^ 20) k.perm := by
    intro u hcu
    have hcu := (hcov u).mp hcu
    rw [Kmap.entry]
    congr 1
    simp only [pgsize] at *
    omega
  have heq : M.mappages d k.virt k.size k.physStart k.perm =
      mapFrom d k.perm (k.size / pgsize - 1) (k.virt / pgsize * pgsize)
        (k.physStart / pgsize * pgsize) M := by
    rw [← mappages_eq hv, ← hsize, ← hvirt, ← hphys]
  have hin : ∀ u, k.virt / pgsize ≤ u ∧ u ≤ k.virt / pgsize + (k.size / pgsize - 1) → k.Covers u :=
    fun u => (hcov u).mpr
  rw [heq]
  rcases mapFrom_spec hs.distinct hv (fun u hu hu' => habs u (hin u ⟨hu, hu'⟩)) hf hk.perm with
    ⟨M', hrun, hM', hfree, u, hcu, hnone⟩ | ⟨M', hrun, hM', hall⟩
  · exact .inl ⟨M', hrun, hM'.mono hin, hfree, u, hin u hcu, hnone⟩
  · refine .inr ⟨M', hrun, hM'.mono hin, fun u hcu => ?_⟩
    rw [hentry u hcu]
    exact hall u ((hcov u).mp hcu)

theorem Kmap.Ok.lt {k : Kmap} (hk : k.Ok) (h : k.Covers u) : u < 2 ^ 20 := by
  have h1 := hk.virtFits
  have h2 := h.2
  simp only [pgsize] at *
  omega

theorem Kmap.Ok.userPages_le {k : Kmap} (hk : k.Ok) (h : k.Covers u) : userPages ≤ u := by
  have h1 := hk.above
  have h2 := h.1
  simp only [userPages, kernbase, pgsize] at *
  omega

theorem mapKernel_spec {ks : List Kmap} (hok : ∀ k ∈ ks, k.Ok)
    (hdis : ks.Pairwise fun k k' => ∀ u, k.Covers u → ¬ k'.Covers u) (hs : Sound L M d)
    (habs : ∀ k ∈ ks, ∀ u, k.Covers u → present (M.pte d u) = false) :
    (∃ M', mapKernel d ks M = .ok (false, M') ∧ Within d (fun u => ∃ k ∈ ks, k.Covers u) M M' ∧
      M'.free = [] ∧ ∃ k ∈ ks, ∃ u, k.Covers u ∧ M'.table d (u / nptentries) = none) ∨
    ∃ M', mapKernel d ks M = .ok (true, M') ∧ Within d (fun u => ∃ k ∈ ks, k.Covers u) M M' ∧
      ∀ k ∈ ks, ∀ u, k.Covers u → M'.pte d u = k.entry u ∧ (M'.table d (u / nptentries)).isSome := by
  induction ks generalizing M with
  | nil => exact .inr ⟨M, rfl, .refl M, fun k hk => by cases hk⟩
  | cons k ks ih =>
    have hk := hok k mem_cons_self
    obtain ⟨hkd, hdis⟩ := pairwise_cons.mp hdis
    have hmono : ∀ u, (∃ k ∈ ks, k.Covers u) → ∃ k' ∈ k :: ks, k'.Covers u := by
      rintro u ⟨k', hk', hu⟩
      exact ⟨k', mem_cons_of_mem k hk', hu⟩
    rw [mapKernel]
    rcases mappages_kmap hk hs (habs k mem_cons_self) with
      ⟨M', hrun, hM', hfree, u, hu, hnone⟩ | ⟨M₁, hrun, hM₁, hall⟩
    · rw [← Kmap.size, hrun]
      exact .inl ⟨M', rfl, hM'.mono fun u hu => ⟨k, mem_cons_self, hu⟩, hfree, k,
        mem_cons_self, u, hu, hnone⟩
    · rw [← Kmap.size, hrun]
      have hs₁ : Sound L M₁ d := hs.of_eq (hM₁.held_total fun u hu => hk.userPages_le hu)
      have habs₁ : ∀ k' ∈ ks, ∀ u, k'.Covers u → present (M₁.pte d u) = false := by
        intro k' hk' u hu
        have hlt := (hok k' (mem_cons_of_mem k hk')).lt hu
        rw [hM₁.pte u hlt fun h => hkd k' hk' u h hu]
        exact habs k' (mem_cons_of_mem k hk') u hu
      have hin := hM₁.mono (Q := fun u => ∃ k' ∈ k :: ks, k'.Covers u) fun u hu =>
        ⟨k, mem_cons_self, hu⟩
      rcases ih (fun k' hk' => hok k' (mem_cons_of_mem k hk')) hdis hs₁ habs₁ with
        ⟨M', hrun', hM', hfree, k', hk', u, hu, hnone⟩ | ⟨M', hrun', hM', hall'⟩
      · exact .inl ⟨M', hrun', hin.trans (hM'.mono hmono), hfree, k', mem_cons_of_mem k hk', u,
          hu, hnone⟩
      · refine .inr ⟨M', hrun', hin.trans (hM'.mono hmono), fun k' hk' u hu => ?_⟩
        rcases mem_cons.mp hk' with rfl | hk'
        · obtain ⟨hpte, hsome⟩ := hall u hu
          refine ⟨?_, hM'.isSome hsome⟩
          rw [hM'.pte u (hk.lt hu), hpte]
          rintro ⟨k'', hk'', hu'⟩
          exact hkd k'' hk'' u hu hu'
        · exact hall' k' hk' u hu

section Layout

variable (L)

theorem kmap_ok : ∀ k ∈ kmap L, k.Ok := by
  have h1 := L.text
  have h2 := L.aligned
  have h3 := L.ordered
  have h4 := L.fits
  intro k hk
  simp only [kmap, mem_cons, not_mem_nil, or_false] at hk
  simp only [kernlink, kernbase, extmem, phystop, pgsize] at h1 h2 h3 h4
  rcases hk with rfl | rfl | rfl | rfl <;> constructor <;>
    simp only [Kmap.size, kernlink, kernbase, extmem, phystop, devspace, pgsize, pteW] <;> omega

theorem kmap_covers_iff (u : ℕ) :
    (∃ k ∈ kmap L, k.Covers u) ↔
      (userPages ≤ u ∧ u < userPages + phystop / pgsize) ∨ (devspace / pgsize ≤ u ∧ u < 2 ^ 20) := by
  have h1 := L.text
  have h2 := L.aligned
  have h3 := L.ordered
  have h4 := L.fits
  simp only [kmap, mem_cons, not_mem_nil, or_false, exists_eq_or_imp, exists_eq_left,
    Kmap.Covers, Kmap.size, userPages, kernlink, kernbase, extmem, phystop, devspace, pgsize] at *
  omega

theorem kmap_disjoint : (kmap L).Pairwise fun k k' => ∀ u, k.Covers u → ¬ k'.Covers u := by
  have h1 := L.text
  have h2 := L.aligned
  have h3 := L.ordered
  have h4 := L.fits
  simp only [kmap, pairwise_cons, mem_cons, not_mem_nil, or_false, forall_eq_or_imp,
    forall_eq, false_imp_iff, implies_true, List.Pairwise.nil, and_true, Kmap.Covers, Kmap.size,
    kernlink, kernbase, extmem, phystop, devspace, pgsize] at *
  refine ⟨⟨?_, ?_, ?_⟩, ⟨?_, ?_⟩, ?_⟩ <;> intro u <;> omega

instance (k : Kmap) (u : ℕ) : Decidable (k.Covers u) := inferInstanceAs (Decidable (_ ∧ _))

/-- The entry for page `u` in every directory, if it is in the kernel's half. -/
def kernelPte (u : ℕ) : ℕ :=
  match (kmap L).find? fun k => k.Covers u with
  | none => 0
  | some k => k.entry u

/-- The page tables of the kernel. -/
def KernelTable (j : ℕ) : Prop :=
  (userPages / nptentries ≤ j ∧ j < (kernbase + phystop) / (pgsize * nptentries)) ∨
    (devspace / (pgsize * nptentries) ≤ j ∧ j < nptentries)

instance : DecidablePred KernelTable := fun _ => inferInstanceAs (Decidable (_ ∨ _))

theorem kernelTable_iff (j : ℕ) :
    KernelTable j ↔ ∃ u, (∃ k ∈ kmap L, k.Covers u) ∧ u / nptentries = j := by
  simp only [kmap_covers_iff, KernelTable, userPages, kernbase, phystop, devspace, pgsize, nptentries]
  constructor
  · intro h
    exact ⟨j * 1024, by omega, by omega⟩
  · rintro ⟨u, hu, rfl⟩
    omega

theorem kernelPte_user (hu : u < userPages) : kernelPte L u = 0 := by
  rw [kernelPte, find?_eq_none.mpr]
  intro k hk hc
  exact not_lt.mpr ((kmap_ok L k hk).userPages_le (of_decide_eq_true hc)) hu

end Layout

theorem card_kernelTable : {j ∈ Finset.range nptentries | KernelTable j}.card = 64 := by
  decide +kernel

/-! ## `setupkvm` -/

/-- In `M'` there is a new directory, `d`, that has the kernel's mappings only. -/
structure NewDir (L : Layout) (d : ℕ) (M M' : Mem) : Prop where
  mem : d ∈ M.free
  suffix : M'.free <:+ M.free
  total : (M'.free : Multiset ℕ) + M'.nodes d = M.free
  pte : ∀ u < 2 ^ 20, M'.pte d u = kernelPte L u
  table : ∀ j, (M'.table d j).isSome ↔ KernelTable j
  page : ∀ g ∉ M.free, M'.page g = M.page g

theorem length_add_card {S : Multiset ℕ} (h : (M'.free : Multiset ℕ) + S = M.free) :
    M'.free.length + S.card = M.free.length := by
  have hcard := congrArg Multiset.card h
  rwa [Multiset.card_add, coe_card, coe_card] at hcard

section Setup

variable (hn : M.free.Nodup) (hal : ∀ f ∈ M.free, L.Allocatable f)

include hn hal

theorem sound_zero {fs : List ℕ} (h : M.free = d :: fs) :
    Sound L (({ M with free := fs } : Mem).zero d) d := by
  have heq : ((({ M with free := fs } : Mem).zero d).free : Multiset ℕ) +
      (({ M with free := fs } : Mem).zero d).held d = M.free := by
    rw [held, nodes_zero, pages_zero, add_zero, h, free_zero, ← cons_coe, add_comm,
      singleton_add]
  refine ⟨?_, ?_⟩
  · rw [heq]
    exact hn
  · rw [heq]
    exact hal

theorem setupkvm_spec {fs : List ℕ} (h : M.free = d :: fs) :
    (∃ M', setupkvm L M = .ok (none, M') ∧ M'.free = [] ∧ M.free.length < 65 ∧
      ∀ g ∉ M.free, M'.page g = M.page g) ∨
    ∃ M', setupkvm L M = .ok (some d, M') ∧ NewDir L d M M' ∧
      M'.free.length + 65 = M.free.length := by
  have hs := sound_zero hn hal h
  set M₁ : Mem := ({ M with free := fs } : Mem).zero d with hM₁
  have htab : ∀ j, M₁.table d j = none := fun j => table_zero
  have hpte : ∀ u, M₁.pte d u = 0 := fun u => pte_zero
  have hfree : (M₁.free : Multiset ℕ) + M₁.nodes d = M.free := by
    rw [hM₁, nodes_zero, h, free_zero, ← cons_coe, add_comm, singleton_add]
  have hrun : ∀ {done M'}, mapKernel d (kmap L) M₁ = .ok (done, M') →
      setupkvm L M = .ok (if done then some d else none, M') := by
    intro done M' hmap
    rw [setupkvm, kalloc_cons h]
    refine (if_neg (by decide)).trans ?_
    rw [hmap]
    rfl
  have htables : ∀ {M' : Mem}, Within d (fun u => ∃ k ∈ kmap L, k.Covers u) M₁ M' →
      ∀ j, (M'.table d j).isSome → KernelTable j := by
    intro M' hM' j hj
    by_contra hno
    rw [kernelTable_iff L] at hno
    rw [hM'.others j fun u hu huj => hno ⟨u, hu, huj⟩, htab] at hj
    cases hj
  have hpage : ∀ {M' : Mem}, Within d (fun u => ∃ k ∈ kmap L, k.Covers u) M₁ M' →
      ∀ g ∉ M.free, M'.page g = M.page g := by
    intro M' hM' g hg
    rw [h] at hg
    have hgd : g ≠ d := fun he => hg (he ▸ mem_cons_self)
    rw [hM'.page g fun hgf => hg (mem_cons_of_mem d hgf)]
    · exact page_setPage_of_ne hgd
    · rw [hM₁, nodes_zero, Multiset.mem_singleton]
      exact hgd
  rcases mapKernel_spec (kmap_ok L) (kmap_disjoint L) hs fun k _ u _ => by rw [hpte]; rfl with
    ⟨M', hrun', hM', hnil, k, hk, u, hu, hnone⟩ | ⟨M', hrun', hM', hall⟩
  · refine .inl ⟨M', hrun hrun', hnil, ?_, hpage hM'⟩
    · have hcard : M'.free.length + (M'.nodes d).card = M.free.length :=
        length_add_card (hM'.total.trans hfree)
      have hlt : {j ∈ Finset.range nptentries | (M'.table d j).isSome}.card < 64 := by
        rw [← card_kernelTable]
        refine Finset.card_lt_card (Finset.ssubset_iff_of_subset ?_ |>.mpr ?_)
        · intro j hj
          obtain ⟨hj, hsome⟩ := Finset.mem_filter.mp hj
          exact Finset.mem_filter.mpr ⟨hj, htables hM' j hsome⟩
        · have hlt : u / nptentries < nptentries := div_nptentries_lt ((kmap_ok L k hk).lt hu)
          refine ⟨u / nptentries, Finset.mem_filter.mpr ⟨Finset.mem_range.mpr hlt, ?_⟩, ?_⟩
          · exact (kernelTable_iff L _).mpr ⟨u, ⟨k, hk, hu⟩, rfl⟩
          · rw [Finset.mem_filter, hnone]
            exact fun h => by cases h.2
      rw [← hcard, hnil, card_nodes, length_nil]
      omega
  · have hsome : ∀ j, (M'.table d j).isSome ↔ KernelTable j := by
      intro j
      refine ⟨htables hM' j, fun hj => ?_⟩
      obtain ⟨u, ⟨k, hk, hu⟩, rfl⟩ := (kernelTable_iff L j).mp hj
      exact (hall k hk u hu).2
    refine .inr ⟨M', hrun hrun', ⟨?_, ?_, hM'.total.trans hfree, ?_, hsome, hpage hM'⟩, ?_⟩
    · rw [h]
      exact mem_cons_self
    · rw [h]
      exact hM'.suffix.trans (suffix_cons d fs)
    · intro u hu
      rw [kernelPte]
      split
      · rename_i hfind
        rw [hM'.pte u hu, hpte]
        rintro ⟨k, hk, hc⟩
        exact find?_eq_none.mp hfind k hk (decide_eq_true hc)
      · rename_i k hfind
        have hc := find?_some (p := fun k => decide (Kmap.Covers k u)) hfind
        exact (hall k (mem_of_find?_eq_some hfind) u (of_decide_eq_true hc)).1
    · have hcard : (M'.nodes d).card = 65 := by
        rw [card_nodes, Finset.filter_congr fun j _ => hsome j, card_kernelTable]
      rw [← hcard]
      exact length_add_card (hM'.total.trans hfree)

/-- **`setupkvm` with enough pages.** -/
theorem setupkvm_ok (hlen : 65 ≤ M.free.length) :
    ∃ d M', setupkvm L M = .ok (some d, M') ∧ NewDir L d M M' ∧
      M'.free.length + 65 = M.free.length := by
  rcases hfree : M.free with _ | ⟨d, fs⟩
  · rw [hfree] at hlen
    cases hlen
  · rcases setupkvm_spec hn hal hfree with ⟨M', -, -, hlt, -⟩ | ⟨M', hrun, hM', hl⟩
    · omega
    · exact ⟨d, M', hrun, hM', hfree ▸ hl⟩

/-- **`setupkvm` with too few pages** keeps all of them. -/
theorem setupkvm_fails (hlen : M.free.length < 65) :
    ∃ M', setupkvm L M = .ok (none, M') ∧ M'.free = [] ∧ ∀ g ∉ M.free, M'.page g = M.page g := by
  rcases hfree : M.free with _ | ⟨d, fs⟩
  · refine ⟨M, ?_, hfree, fun _ _ => rfl⟩
    rw [setupkvm, kalloc_nil hfree]
  · rcases setupkvm_spec hn hal hfree with ⟨M', hrun, hnil, -, hpage⟩ | ⟨M', -, -, hl⟩
    · exact ⟨M', hrun, hnil, hfree ▸ hpage⟩
    · omega

end Setup

theorem NewDir.pages (h : NewDir L d M M') : M'.pages d = 0 :=
  Radix.Format.leaves_eq_zero fun u hu => (h.pte u (userPages_lt hu)).trans (kernelPte_user L hu)

theorem NewDir.sound (h : NewDir L d M M') (hn : M.free.Nodup)
    (hal : ∀ f ∈ M.free, L.Allocatable f) : Sound L M' d := by
  have htotal : (M'.free : Multiset ℕ) + M'.held d = M.free := by
    rw [held, h.pages, add_zero, h.total]
  refine ⟨?_, ?_⟩
  · rw [htotal]
    exact hn
  · rw [htotal]
    exact hal

end Xv6.Vm.Mem
