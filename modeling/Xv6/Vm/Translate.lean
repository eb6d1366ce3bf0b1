import Xv6.Vm.Grow

/-!
# What `mappages` means to the hardware

`translate` is how the processor reads a page directory: the entry of the directory and the entry
of the page table both have to be present, and both have to allow an access.  `mapLoop` is the
`for(;;)` of `mappages` as it stands in the source, which stops on equality with the last page and
not on order; it also lists the addresses that it comes to.
-/

namespace Xv6.Vm.Mem

open List

variable {M M' : Mem} {d u v f n perm : ℕ}

/-! ## The hardware -/

/-- What the processor makes of a virtual address: a physical address, and whether it may be written
to and whether user code may use it. -/
structure Translation where
  addr : ℕ
  writable : Bool
  user : Bool

/-- The processor translates an address. -/
def translate (M : Mem) (d va : ℕ) : Option Translation :=
  let pde := M.word d (pdx va)
  if present pde then
    let pte := M.word (pageOf pde) (ptx va)
    if present pte then
      some ⟨pageOf pte * pgsize + va % pgsize, writable pde && writable pte, user pde && user pte⟩
    else none
  else none

/-- The directory entries allow everything, as `walkpgdir` makes them. -/
def Generous (M : Mem) (d : ℕ) : Prop :=
  ∀ j < nptentries, present (M.word d j) = true → writable (M.word d j) = true ∧ user (M.word d j) = true

theorem translate_eq (hg : Generous M d) {va : ℕ} (hva : va < 2 ^ 32) :
    M.translate d va = if present (M.pte d (va / pgsize)) then
      some ⟨pageOf (M.pte d (va / pgsize)) * pgsize + va % pgsize, writable (M.pte d (va / pgsize)),
        user (M.pte d (va / pgsize))⟩ else none := by
  have hpdx : pdx va = va / pgsize / nptentries := by
    simp only [pdx, pgsize, nptentries]
    omega
  have hlt : va / pgsize / nptentries < nptentries := div_nptentries_lt (by simp only [pgsize]; omega)
  by_cases hp : present (M.word d (va / pgsize / nptentries)) = true
  · have ht : M.table d (va / pgsize / nptentries) = some (pageOf (M.word d (va / pgsize / nptentries))) :=
      if_pos hp
    obtain ⟨hw, hu⟩ := hg _ hlt hp
    simp only [translate, hpdx, hp, if_true, pte_of_table ht, hw, hu, Bool.true_and, ptx]
  · have ht : M.table d (va / pgsize / nptentries) = none := if_neg hp
    rw [pte_of_no_table ht]
    simp only [translate, hpdx, hp]
    rfl

/-! ## The loop -/

/-- The loop of `mappages`, for at most `fuel` rounds, and the addresses it comes to. -/
def mapLoop (d perm last : ℕ) : ℕ → ℕ → ℕ → Mem → Option (List ℕ × Except Stop (Bool × Mem))
  | 0, _, _, _ => none
  | fuel + 1, a, pa, M =>
    match M.mapPage d a pa perm with
    | .error e => some ([a], .error e)
    | .ok (false, M) => some ([a], .ok (false, M))
    | .ok (true, M) =>
      if a = last then some ([a], .ok (true, M))
      else
        match mapLoop d perm last fuel ((a + pgsize) % 2 ^ 32) ((pa + pgsize) % 2 ^ 32) M with
        | none => none
        | some (as, r) => some (a :: as, r)

/-- The addresses of the pages from `v` to `v + n`. -/
def addresses (v n : ℕ) : List ℕ := (List.range (n + 1)).map fun i => (v + i) * pgsize

theorem addresses_succ (v n : ℕ) : addresses v (n + 1) = v * pgsize :: addresses (v + 1) n := by
  rw [addresses, range_succ_eq_map, map_cons, map_map, addresses]
  refine congrArg _ (map_congr_left fun i _ => ?_)
  change (v + (i + 1)) * pgsize = (v + 1 + i) * pgsize
  rw [add_right_comm, add_assoc]

/-- **The loop ends**: it does what `mapFrom` does, and comes to no address twice. -/
theorem mapLoop_eq (d perm pa : ℕ) (M : Mem) (hv : v + n < 2 ^ 20) :
    ∃ as, (∀ fuel > n, mapLoop d perm ((v + n) * pgsize) fuel (v * pgsize) pa M =
        some (as, mapFrom d perm n (v * pgsize) pa M)) ∧ as <+: addresses v n ∧
      ∀ M', mapFrom d perm n (v * pgsize) pa M = .ok (true, M') → as = addresses v n := by
  induction n generalizing v pa M with
  | zero =>
    have haddr : addresses v 0 = [v * pgsize] := by simp [addresses]
    refine ⟨[v * pgsize], fun fuel hfuel => ?_, haddr ▸ prefix_rfl, fun _ _ => haddr.symm⟩
    obtain ⟨fuel, rfl⟩ := Nat.exists_eq_add_one_of_ne_zero (Nat.ne_of_gt hfuel)
    rw [mapLoop, mapFrom]
    rcases M.mapPage d (v * pgsize) pa perm with e | ⟨_ | _, M₁⟩
    · rfl
    · rfl
    · exact if_pos rfl
  | succ n ih =>
    have hstart : [v * pgsize] <+: addresses v (n + 1) := by
      rw [addresses_succ]
      exact ⟨_, rfl⟩
    have ha : (v * pgsize + pgsize) % 2 ^ 32 = (v + 1) * pgsize := by
      simp only [pgsize]
      omega
    have hlast : v * pgsize ≠ (v + 1 + n) * pgsize := by
      simp only [pgsize]
      omega
    have hpos : ∀ fuel > n + 1, ∃ k, fuel = k + 1 := fun fuel hfuel =>
      Nat.exists_eq_add_one_of_ne_zero (Nat.ne_of_gt (Nat.zero_lt_of_lt hfuel))
    rw [show v + (n + 1) = v + 1 + n by omega]
    rcases hrun : M.mapPage d (v * pgsize) pa perm with e | ⟨_ | _, M₁⟩
    · refine ⟨_, fun fuel hfuel => ?_, hstart, fun M' h => ?_⟩
      · obtain ⟨fuel, rfl⟩ := hpos fuel hfuel
        rw [mapLoop, mapFrom, hrun]
        rfl
      · rw [mapFrom, hrun] at h
        cases h
    · refine ⟨_, fun fuel hfuel => ?_, hstart, fun M' h => ?_⟩
      · obtain ⟨fuel, rfl⟩ := hpos fuel hfuel
        rw [mapLoop, mapFrom, hrun]
        rfl
      · rw [mapFrom, hrun] at h
        cases h
    · obtain ⟨as, hloop, hpre, hall⟩ := ih ((pa + pgsize) % 2 ^ 32) M₁ (show v + 1 + n < 2 ^ 20 by omega)
      have hfrom : mapFrom d perm (n + 1) (v * pgsize) pa M =
          mapFrom d perm n ((v + 1) * pgsize) ((pa + pgsize) % 2 ^ 32) M₁ := by
        simp only [mapFrom, hrun, ok_bind, if_true, ha]
      rw [hfrom, addresses_succ]
      refine ⟨v * pgsize :: as, fun fuel hfuel => ?_, (prefix_cons_inj _).mpr hpre,
        fun M' h => congrArg _ (hall M' h)⟩
      obtain ⟨fuel, rfl⟩ := hpos fuel hfuel
      simp only [mapLoop, hrun, if_neg hlast, ha, hloop fuel (Nat.lt_of_succ_lt_succ hfuel)]

/-! ## The directory entries -/

theorem generous_congr (hg : Generous M d) (h : M'.page d = M.page d) : Generous M' d := by
  intro j hj
  rw [word_congr h]
  exact hg j hj

/-- A directory entry that `walkpgdir` makes allows everything. -/
theorem generous_graft {t j : ℕ} (hj : j < nptentries) (ht : t < 2 ^ 20) (htn : t ∉ M.nodes d)
    (hg : Generous M d) : Generous (M.graft d j t) d := by
  intro k hk hp
  rw [word_graft hj ht] at hp ⊢
  by_cases hkj : k = j
  · rw [hkj, Radix.Format.graft, Radix.set_same, ← pde_eq]
    simp only [writable, user, Nat.testBit_or, Bool.or_eq_true]
    exact ⟨.inl (.inr (by decide)), .inr (by decide)⟩
  · rw [Radix.Format.graft_root_of_ne (F := format) htn hkj] at hp ⊢
    exact hg k hk hp

theorem mapPage_generous {pa : ℕ} {b : Bool} (hs : Distinct M d) (hv : v < 2 ^ 20) (hg : Generous M d)
    (habs : present (M.pte d v) = false) (h : M.mapPage d (v * pgsize) pa perm = .ok (b, M')) :
    Generous M' d := by
  rcases ht : M.table d (v / nptentries) with _ | t
  · rcases hfree : M.free with _ | ⟨t, fs⟩
    · rw [mapPage, walkAlloc_nil hv ht hfree] at h
      cases h
      exact hg
    · have hmem : t ∈ M.free := hfree ▸ mem_cons_self
      have htn : t ∉ M.nodes d := hs.notMem_nodes hmem
      have hdt : d ≠ t := fun he => htn (he ▸ root_mem)
      have hj := div_nptentries_lt hv
      have htable := table_graft (M := { M with free := fs }) (k := v / nptentries) hj (hs.lt t hmem) htn
      rw [if_pos rfl] at htable
      have hpte := pte_graft (M := { M with free := fs }) hj (hs.lt t hmem) htn hs.nodes_nodup ht hv
      rw [mapPage_eq (walkAlloc_cons hv ht hfree) htable (by rw [hpte]; exact habs)] at h
      cases h
      exact generous_congr (generous_graft (M := { M with free := fs }) hj (hs.lt t hmem) htn hg)
        (page_setWord_of_ne hdt)
  · rw [mapPage_eq (walkAlloc_some hv ht) ht habs] at h
    cases h
    exact generous_congr hg (page_setWord_of_ne (table_ne_root hs.nodes_nodup hv ht).symm)

/-- **The directory entries stay generous.** -/
theorem mapFrom_generous {b : Bool} (hs : Distinct M d) (hv : v + n < 2 ^ 20) (hg : Generous M d)
    (habs : ∀ u, v ≤ u → u ≤ v + n → present (M.pte d u) = false) (hf : f < 2 ^ 20) (hp : perm < pgsize)
    (h : mapFrom d perm n (v * pgsize) (f * pgsize) M = .ok (b, M')) : Generous M' d := by
  induction n generalizing v f M with
  | zero => exact mapPage_generous hs hv hg (habs v le_rfl le_rfl) h
  | succ n ih =>
    have habsv := habs v le_rfl (by omega)
    have ha : (v * pgsize + pgsize) % 2 ^ 32 = (v + 1) * pgsize := by
      simp only [pgsize]
      omega
    have hpa : (f * pgsize + pgsize) % 2 ^ 32 = (f + 1) % 2 ^ 20 * pgsize := by
      simp only [pgsize]
      omega
    rw [mapFrom] at h
    rcases mapPage_spec (v := v) (f := f) hs (by omega) habsv hf hp with ⟨-, -, hrun⟩ | ⟨M₁, hrun, hM₁⟩
    · rw [hrun] at h
      cases h
      exact hg
    · simp only [hrun, ok_bind, if_true, ha, hpa] at h
      refine ih ((hM₁.within (P := fun _ => True) trivial).distinct hs) (by omega)
        (mapPage_generous hs (by omega) hg habsv hrun) (fun u hu hu' => ?_)
        (Nat.mod_lt _ (by decide)) h
      rw [hM₁.pte u (by omega), if_neg (by omega)]
      exact habs u (by omega) (by omega)

/-! ## `mappages` -/

/-- The address is in a page that `mappages(pgdir, va, size, pa, perm)` touches. -/
def Touched (va size a : ℕ) : Prop :=
  va / pgsize ≤ a / pgsize ∧ a / pgsize ≤ (va + size - 1) / pgsize

instance (va size a : ℕ) : Decidable (Touched va size a) := inferInstanceAs (Decidable (_ ∧ _))

/-- **The page table implements a map.**  Take a directory whose page tables are distinct and not on
the free list, and whose entries are as `walkpgdir` makes them, and a range that does not wrap, none
of whose pages is present.  The loop of `mappages` ends and does not panic, it comes to the pages of
the range in turn and to none twice; and if it succeeds it has come to all of them, the range is
translated as asked for, and every other address as before. -/
theorem mappages_translate (hs : Distinct M d) (hg : Generous M d) {va size pa : ℕ}
    (hsize : 0 < size) (hfits : va + size - 1 < 2 ^ 32) (hpa : pa < 2 ^ 32) (halign : pa % pgsize = 0)
    (hperm : perm < pgsize) (habs : ∀ a, Touched va size a → M.translate d a = none) :
    ∃ as b M', (∀ fuel ≥ 2 ^ 20,
        mapLoop d perm (pgrounddown ((va + size - 1) % 2 ^ 32)) fuel (pgrounddown va) pa M =
          some (as, .ok (b, M'))) ∧
      M.mappages d va size pa perm = .ok (b, M') ∧
      as <+: addresses (va / pgsize) ((va + size - 1) / pgsize - va / pgsize) ∧
      (b = true → as = addresses (va / pgsize) ((va + size - 1) / pgsize - va / pgsize) ∧
        ∀ a < 2 ^ 32, M'.translate d a =
          if Touched va size a then
            some ⟨(pa + (a - pgrounddown va)) % 2 ^ 32, perm.testBit 1, perm.testBit 2⟩
          else M.translate d a) := by
  obtain ⟨v, hv⟩ : ∃ v, v = va / pgsize := ⟨_, rfl⟩
  obtain ⟨n, hn⟩ : ∃ n, n = (va + size - 1) / pgsize - va / pgsize := ⟨_, rfl⟩
  obtain ⟨f, hf⟩ : ∃ f, f = pa / pgsize := ⟨_, rfl⟩
  have hvn : v + n = (va + size - 1) / pgsize := by
    simp only [pgsize] at *
    omega
  have hlt : v + n < 2 ^ 20 := by
    simp only [pgsize] at *
    omega
  have hflt : f < 2 ^ 20 := by
    simp only [pgsize] at *
    omega
  have hstart : pgrounddown va = v * pgsize := by rw [pgrounddown, hv]
  have hlast : pgrounddown ((va + size - 1) % 2 ^ 32) = (v + n) * pgsize := by
    rw [Nat.mod_eq_of_lt hfits, pgrounddown, hvn]
  have hphys : pa = f * pgsize := by
    simp only [pgsize] at *
    omega
  have habs' : ∀ u, v ≤ u → u ≤ v + n → present (M.pte d u) = false := by
    intro u hu hu'
    have hpage : u * pgsize / pgsize = u := Nat.mul_div_cancel _ (by decide)
    have h := habs (u * pgsize) (by rw [Touched, hpage, ← hv, ← hvn]; exact ⟨hu, hu'⟩)
    rw [translate_eq hg (by simp only [pgsize] at *; omega), hpage] at h
    simpa using h
  have hmap : M.mappages d va size pa perm = mapFrom d perm n (v * pgsize) (f * pgsize) M := by
    have hcount : (pgrounddown ((va + size + (2 ^ 32 - 1)) % 2 ^ 32) + 2 ^ 32 - v * pgsize) % 2 ^ 32 /
        pgsize = n := by
      simp only [pgrounddown, pgsize] at *
      omega
    rw [mappages, hstart, hphys, hcount]
  rw [← hn, ← hv, hstart, hlast, hmap, hphys]
  obtain ⟨as, hloop, hpre, hall⟩ := mapLoop_eq d perm (f * pgsize) M hlt
  have hend : ∀ {b M'}, mapFrom d perm n (v * pgsize) (f * pgsize) M = .ok (b, M') →
      ∀ fuel ≥ 2 ^ 20, mapLoop d perm ((v + n) * pgsize) fuel (v * pgsize) (f * pgsize) M =
        some (as, .ok (b, M')) := fun h fuel hfuel => by rw [hloop fuel (by omega), h]
  rcases mapFrom_spec hs hlt habs' hflt hperm with ⟨M', hrun, -⟩ | ⟨M', hrun, hM', hpte⟩
  · exact ⟨as, false, M', hend hrun, hrun, hpre, fun h => by cases h⟩
  · refine ⟨as, true, M', hend hrun, hrun, hpre, fun _ => ⟨hall M' hrun, fun a ha => ?_⟩⟩
    have hg' := mapFrom_generous hs hlt hg habs' hflt hperm hrun
    have hpage : a / pgsize < 2 ^ 20 := by
      simp only [pgsize]
      omega
    rw [translate_eq hg' ha]
    by_cases ht : Touched va size a
    · have hin : v ≤ a / pgsize ∧ a / pgsize ≤ v + n := by
        rw [hv, ← hv, hvn]
        exact hv ▸ ht
      have haddr : (f + (a / pgsize - v)) % 2 ^ 20 * pgsize + a % pgsize =
          (f * pgsize + (a - v * pgsize)) % 2 ^ 32 := by
        simp only [pgsize] at *
        omega
      rw [if_pos ht, (hpte _ hin).1, if_pos present_entry, pageOf_entry hperm, writable_entry, user_entry,
        haddr]
    · have hout : ¬ (v ≤ a / pgsize ∧ a / pgsize ≤ v + n) := by
        rw [hvn]
        exact hv ▸ ht
      rw [if_neg ht, translate_eq hg ha, hM'.pte _ hpage hout]

theorem generous_bareMem (free : List ℕ) : Generous (bareMem free) 1000 := by
  intro j _ hp
  rw [bareMem, word_zero, Radix.clear_same] at hp
  cases hp

/-- The last two pages of the address space are mapped into an empty directory, from the middle of
the first on. -/
theorem mappages_translate_top : ∃ M',
    (bareMem [1001]).mappages 1000 0xFFFFE010 0x1FF0 0xFFFFE000 pteW = .ok (true, M') ∧
      M'.translate 1000 0xFFFFFFFF = some ⟨0xFFFFFFFF, true, false⟩ ∧ M'.translate 1000 0x1000 = none := by
  have hs : Sound someLayout (bareMem [1001]) 1000 := bareMem_sound (by decide) (by decide)
  have hnone : ∀ a < 2 ^ 32, (bareMem [1001]).translate 1000 a = none := fun a ha => by
    rw [translate_eq (generous_bareMem _) ha, bareMem_absent]
    rfl
  obtain ⟨as, b, M', -, hrun, -, hb⟩ := mappages_translate hs.distinct (generous_bareMem _)
    (show 0 < 0x1FF0 by decide) (show 0xFFFFE010 + 0x1FF0 - 1 < 2 ^ 32 by decide)
    (show 0xFFFFE000 < 2 ^ 32 by decide) (by decide) (show pteW < pgsize by decide) fun a ha => hnone a (by simp only [Touched, pgsize] at ha; omega)
  have hdone : ((bareMem [1001]).mappages 1000 0xFFFFE010 0x1FF0 0xFFFFE000 pteW).toOption.map Prod.fst =
      some true := by
    decide +kernel
  rw [hrun] at hdone
  obtain rfl : b = true := Option.some.inj hdone
  have htr := (hb rfl).2
  refine ⟨M', hrun, ?_, ?_⟩
  · rw [htr _ (by decide)]
    rfl
  · rw [htr _ (by decide), hnone _ (by decide)]
    rfl

end Xv6.Vm.Mem
