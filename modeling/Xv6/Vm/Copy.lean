import Xv6.Vm.Grow

/-!
# `copyuvm`

`copyuvm` makes a directory with the kernel's mappings and fills it with copies of the pages of
the parent.  The pages come from the free list, so that nothing that the parent holds is written:
`Kept` says so, and is what the loop keeps.

* `copyuvm_copied` --- there are pages enough: the copy is complete (`Copied`).
* `copyuvm_noPage` --- there is no page for a page: all pages are given back.
* `copyuvm_noTable` --- there is no page for a page table: the page that was to be mapped is lost.
* `copyuvm_noDir` --- there are too few pages for `setupkvm`, which keeps all of them.
-/

namespace Xv6.Vm.Mem

variable {L : Layout} {M M' M₁ : Mem} {pgdir d v u f g n sz : ℕ} {fs : List ℕ}

/-! ## What the parent holds -/

/-- What `pgdir` held in `M` is still as it was, and `d` has nothing to do with it. -/
def Kept (pgdir d : ℕ) (M M' : Mem) : Prop :=
  ∀ g ∈ M.held pgdir, M'.page g = M.page g ∧ g ∉ M'.free ∧ g ∉ M'.nodes d

theorem Kept.of_newDir (hs : Sound L M pgdir) (h : NewDir L d M M') : Kept pgdir d M M' := by
  intro g hg
  have hgf : g ∉ M.free := fun hf => hs.notMem_held hf hg
  refine ⟨h.page g hgf, fun hf => hgf (h.suffix.subset hf), fun hn => hgf ?_⟩
  have hmem : g ∈ (M.free : Multiset ℕ) := h.total ▸ Multiset.mem_add.mpr (.inr hn)
  exact Multiset.mem_coe.mp hmem

theorem Kept.filled {P : ℕ → Prop} {b : ℕ → Bytes pgsize} {perm : ℕ → ℕ} {M'' : Mem}
    (h : Kept pgdir d M M') (hfill : Filled d P b perm M' M'') : Kept pgdir d M M'' := by
  intro g hg
  obtain ⟨hpage, hgf, hgn⟩ := h g hg
  obtain ⟨hgf', hgn'⟩ := hfill.notMem hgf hgn
  exact ⟨(hfill.page g hgf hgn).trans hpage, hgf', hgn'⟩

theorem Kept.table (h : Kept pgdir d M M') (j : ℕ) : M'.table pgdir j = M.table pgdir j :=
  table_congr (h pgdir (Multiset.mem_add.mpr (.inl root_mem))).1 j

theorem Kept.pte (h : Kept pgdir d M M') (hv : v < 2 ^ 20) : M'.pte pgdir v = M.pte pgdir v :=
  pte_congr (fun g hg => (h g (Multiset.mem_add.mpr (.inl hg))).1) hv

theorem flags_or_pteP {x : ℕ} (h : present x = true) : flags x ||| pteP = flags x := by
  refine Nat.eq_of_testBit_eq fun i => ?_
  rw [Nat.testBit_or]
  rcases Nat.eq_zero_or_pos i with rfl | hi
  · have h0 : (flags x).testBit 0 = true := by
      rw [flags, show pgsize = 2 ^ 12 from rfl, Nat.testBit_mod_two_pow]
      exact h
    rw [h0]
    rfl
  · have hz : pteP.testBit i = false := Nat.testBit_lt_two_pow (Nat.one_lt_two_pow hi.ne')
    rw [hz, Bool.or_false]

/-! ## The loop -/

section Loop

variable (hspace : ∀ v < pagesBetween 0 sz, present (M.pte pgdir v) = true) (hsz : sz < kernbase)

include hspace hsz

theorem copyFrom_round (hv : v < pagesBetween 0 sz) (hkept : Kept pgdir d M M₁)
    (hfree : M₁.free = f :: fs) {done : Bool}
    (hrun : (M₁.taken f fs (M.page (pageOf (M.pte pgdir v)))).mappages d (v * pgsize) pgsize
      (f * pgsize) (flags (M.pte pgdir v)) = .ok (done, M')) :
    copyFrom pgdir d (n + 1) (v * pgsize) M₁ =
      if done then copyFrom pgdir d n ((v + 1) * pgsize) M' else pure (false, M') := by
  have hvu := hv.trans_le (pagesBetween_le hsz.le)
  have hp := hspace v hv
  have hpte := hkept.pte (userPages_lt hvu)
  obtain ⟨t, ht⟩ := exists_table hp
  have ht₁ := (hkept.table (v / nptentries)).trans ht
  have hpage : M₁.page (pageOf (M.pte pgdir v)) = M.page (pageOf (M.pte pgdir v)) :=
    (hkept _ (Multiset.mem_add.mpr (.inr (mem_pages.mpr ⟨v, hvu, hp, rfl⟩)))).1
  have hword : M₁.word t (v % nptentries) = M.pte pgdir v := by rw [← pte_of_table ht₁, hpte]
  have hrun' : ((({ M₁ with free := fs } : Mem).setPage f
      (({ M₁ with free := fs } : Mem).page (pageOf (M.pte pgdir v)))).mappages d (v * pgsize) pgsize
        (f * pgsize) (flags (M.pte pgdir v))) = .ok (done, M') := by
    rw [← hrun, taken, ← hpage]
  rw [copyFrom, walk_eq (userPages_lt hvu), ht₁]
  simp only [Option.map_some, hword, hp, if_true, kalloc_cons hfree, hrun', ok_bind]
  rw [show v * pgsize + pgsize = (v + 1) * pgsize by rw [add_mul, one_mul]]

theorem copyFrom_nil (hv : v < pagesBetween 0 sz) (hkept : Kept pgdir d M M₁) (hfree : M₁.free = []) :
    copyFrom pgdir d (n + 1) (v * pgsize) M₁ = .ok (false, M₁) := by
  have hvu := hv.trans_le (pagesBetween_le hsz.le)
  have hp := hspace v hv
  obtain ⟨t, ht⟩ := exists_table hp
  have ht₁ := (hkept.table (v / nptentries)).trans ht
  have hword : M₁.word t (v % nptentries) = M.pte pgdir v := by
    rw [← pte_of_table ht₁, hkept.pte (userPages_lt hvu)]
  rw [copyFrom, walk_eq (userPages_lt hvu), ht₁]
  simp only [Option.map_some, hword, hp, if_true, kalloc_nil hfree]

end Loop

/-- The requests of the loop of `copyuvm`. -/
def copyRequests (sz : ℕ) : List Request := requests (fun _ => false) (pagesBetween 0 sz) 0

/-- In `M'` the directory `d` has copies of the first pages of `pgdir`. -/
abbrev CopiedTo (pgdir d k : ℕ) (M M₁ M' : Mem) : Prop :=
  Filled d (fun u => 0 ≤ u ∧ u < 0 + k) (fun u => M.page (pageOf (M.pte pgdir u)))
    (fun u => flags (M.pte pgdir u)) M₁ M'

section Copyuvm

variable (hs : Sound L M pgdir) (hspace : ∀ v < pagesBetween 0 sz, present (M.pte pgdir v) = true)
  (hsz : sz < kernbase)

include hs hspace hsz

theorem copyuvm_advance (hlen : 65 ≤ M.free.length) :
    ∃ d M₁, setupkvm L M = .ok (some d, M₁) ∧ NewDir L d M M₁ ∧
      M₁.free.length + 65 = M.free.length ∧ ∃ k ≤ pagesBetween 0 sz, ∃ M',
        CopiedTo pgdir d k M M₁ M' ∧ Kept pgdir d M M' ∧
        copyFrom pgdir d (pagesBetween 0 sz) 0 M₁ =
          copyFrom pgdir d (pagesBetween 0 sz - k) ((0 + k) * pgsize) M' ∧
        (copyRequests sz).drop (M.free.length - 65) =
          (requests (M'.has d) (pagesBetween 0 sz - k) (0 + k)).drop M'.free.length ∧
        (k = pagesBetween 0 sz ∨ M'.free = [] ∨
          (∃ f, M'.free = [f]) ∧ M'.table d ((0 + k) / nptentries) = none) := by
  have hal : ∀ f ∈ M.free, L.Allocatable f := fun f hf => hs.takes_free hf
  have hpages := pagesBetween_le hsz.le
  obtain ⟨d, M₁, hrun, hM₁, hlen₁⟩ := setupkvm_ok hs.free_nodup hal hlen
  have hs₁ := hM₁.sound hs.free_nodup hal
  obtain ⟨k, hk, M', hM', hkept, hloop, hreq, hend⟩ :=
    advance (fun n v M => copyFrom pgdir d n (v * pgsize) M) (Kept pgdir d M)
      (fun u => M.page (pageOf (M.pte pgdir u))) (fun u => flags (M.pte pgdir u))
      (fun h hfill => h.filled hfill) hpages
      (fun hv hinv hfree hrun => by
        rw [copyFrom_round hspace hsz hv hinv hfree hrun]
        rfl)
      (fun u => Nat.mod_lt _ (by decide)) (Kept.of_newDir hs hM₁) hs₁ (v := 0)
      (n := pagesBetween 0 sz) (by omega) fun u _ hu => by
        rw [hM₁.pte u (userPages_lt (by omega)), kernelPte_user L (by omega)]
        rfl
  refine ⟨d, M₁, hrun, hM₁, hlen₁, k, hk, M', hM', hkept, ?_, ?_, hend⟩
  · rw [← hloop, zero_mul]
  · rw [← hreq, copyRequests, show M.free.length - 65 = M₁.free.length by omega]
    congr 1
    refine requests_congr fun u _ hu => ?_
    have hno : ¬ KernelTable (u / nptentries) := by
      simp only [KernelTable, userPages, kernbase, phystop, devspace, pgsize, nptentries] at hpages ⊢
      omega
    rw [Mem.has]
    rcases ht : M₁.table d (u / nptentries) with _ | t
    · rfl
    · exact absurd ((hM₁.table _).mp (by rw [ht]; rfl)) hno

theorem copyuvm_copied (hlen : 65 ≤ M.free.length)
    (hreq : (copyRequests sz).drop (M.free.length - 65) = []) :
    ∃ d M₁ M', copyuvm L M pgdir sz = .ok (some d, M') ∧ NewDir L d M M₁ ∧
      CopiedTo pgdir d (pagesBetween 0 sz) M M₁ M' := by
  obtain ⟨d, M₁, hrun, hM₁, -, k, hk, M', hM', hkept, hloop, hdrop, hend⟩ :=
    copyuvm_advance hs hspace hsz hlen
  obtain ⟨-, rfl⟩ | ⟨m, rest, hpage, -⟩ | ⟨m, f, has, htable, -⟩ := next_request hk hdrop hend
  · refine ⟨d, M₁, M', ?_, hM₁, hM'⟩
    rw [copyuvm, hrun]
    simp only [ok_bind, hloop, Nat.sub_self]
    rfl
  · cases hreq.symm.trans hpage
  · cases hreq.symm.trans htable

theorem copyuvm_noPage (hlen : 65 ≤ M.free.length) {rest : List Request}
    (hreq : (copyRequests sz).drop (M.free.length - 65) = .page :: rest) :
    ∃ M', copyuvm L M pgdir sz = .ok (none, M') ∧ (M'.free : Multiset ℕ) = M.free := by
  obtain ⟨d, M₁, hrun, hM₁, -, k, hk, M', hM', hkept, hloop, hdrop, hend⟩ :=
    copyuvm_advance hs hspace hsz hlen
  have hal : ∀ f ∈ M.free, L.Allocatable f := fun f hf => hs.takes_free hf
  have hs' := hM'.sound (hM₁.sound hs.free_nodup hal)
  obtain ⟨hdone, -⟩ | ⟨m, rest', -, hm, hnil⟩ | ⟨m, f, has, htable, -⟩ := next_request hk hdrop hend
  · cases hreq.symm.trans hdone
  · obtain ⟨M'', hfreevm, hfree, -⟩ := freevm_ok hs'.held_nodup fun f hf => hs'.takes_held hf
    have hstop := copyFrom_nil (n := m) (v := 0 + k) hspace hsz (by omega) hkept hnil
    refine ⟨M'', ?_, ?_⟩
    · rw [copyuvm, hrun]
      simp only [ok_bind, hloop, hm, hstop]
      simp only [Bool.false_eq_true, if_false, hfreevm, ok_bind]
      rfl
    · rw [hfree, add_comm, hM'.total, held, hM₁.pages, add_zero, hM₁.total]
  · cases hreq.symm.trans htable

theorem copyuvm_noTable (hlen : 65 ≤ M.free.length) {rest : List Request}
    (hreq : (copyRequests sz).drop (M.free.length - 65) = .table :: rest) :
    ∃ f M', copyuvm L M pgdir sz = .ok (none, M') ∧ f ::ₘ (M'.free : Multiset ℕ) = M.free := by
  obtain ⟨d, M₁, hrun, hM₁, -, k, hk, M', hM', hkept, hloop, hdrop, hend⟩ :=
    copyuvm_advance hs hspace hsz hlen
  have hal : ∀ f ∈ M.free, L.Allocatable f := fun f hf => hs.takes_free hf
  have hpages := pagesBetween_le hsz.le
  have hs' := hM'.sound (hM₁.sound hs.free_nodup hal)
  obtain ⟨hdone, -⟩ | ⟨m, rest', hpage, -⟩ | ⟨m, f, has, -, hm, hf, hnone⟩ := next_request hk hdrop hend
  · cases hreq.symm.trans hdone
  · cases hreq.symm.trans hpage
  · have hvk : 0 + k < pagesBetween 0 sz := by omega
    have habs : present (M'.pte d (0 + k)) = false := by
      rw [hM'.pte _ (userPages_lt (by omega)) (by omega), hM₁.pte _ (userPages_lt (by omega)),
        kernelPte_user L (by omega)]
      rfl
    rcases addPage_spec hs' (by omega) habs
      (show flags (M.pte pgdir (0 + k)) < pgsize from Nat.mod_lt _ (by decide)) hf
      (M.page (pageOf (M.pte pgdir (0 + k)))) with ⟨-, -, hmap⟩ | ⟨M₂, -, -, hlen₂⟩
    · have hs₂ := sound_taken (b := M.page (pageOf (M.pte pgdir (0 + k)))) hs' hf
      obtain ⟨M'', hfreevm, hfree, -⟩ := freevm_ok hs₂.held_nodup fun f hf => hs₂.takes_held hf
      refine ⟨f, M'', ?_, ?_⟩
      · rw [copyuvm, hrun]
        simp only [ok_bind, hloop, hm, copyFrom_round hspace hsz hvk hkept hf hmap]
        simp only [Bool.false_eq_true, if_false, pure, Except.pure, ok_bind, hfreevm]
      · have htotal := hM'.total
        rw [held, held, hM₁.pages, add_zero, hM₁.total, hf] at htotal
        rw [hfree, held_taken hs' hf, ← htotal, held, ← Multiset.singleton_add, add_comm _ (_ + _)]
        rw [show ((M'.taken f [] (M.page (pageOf (M.pte pgdir (0 + k))))).free : Multiset ℕ) = 0
          from rfl, Multiset.coe_singleton]
        abel
    · rw [hnone, hf] at hlen₂
      simp at hlen₂

omit hspace hsz in
variable (sz) in
theorem copyuvm_noDir (hlen : M.free.length < 65) :
    ∃ M', copyuvm L M pgdir sz = .ok (none, M') ∧ M'.free = [] := by
  obtain ⟨M', hrun, hnil, -⟩ :=
    setupkvm_fails (L := L) hs.free_nodup (fun f hf => hs.takes_free hf) hlen
  refine ⟨M', ?_, hnil⟩
  rw [copyuvm, hrun]
  rfl

end Copyuvm

/-! ## The copy -/

/-- **`copyuvm` duplicates an address space.** -/
theorem copyuvm_duplicates (L : Layout) (M : Mem) (pgdir sz : ℕ) (hs : Sound L M pgdir)
    (hsz : sz < kernbase) (hspace : ∀ v, v * pgsize < sz → present (M.pte pgdir v) = true)
    (d : ℕ) (M' : Mem) (hrun : copyuvm L M pgdir sz = .ok (some d, M')) :
    (∀ v, v * pgsize < sz →
      present (M'.pte d v) = true ∧ flags (M'.pte d v) = flags (M.pte pgdir v) ∧
      pageOf (M'.pte d v) ∈ M.free ∧
      M'.page (pageOf (M'.pte d v)) = M.page (pageOf (M.pte pgdir v))) ∧
    (∀ v < userPages, sz ≤ v * pgsize → present (M'.pte d v) = false) ∧
    (∀ u < userPages, ∀ v < userPages, present (M'.pte d u) = true → present (M'.pte d v) = true →
      pageOf (M'.pte d u) = pageOf (M'.pte d v) → u = v) ∧
    (∀ u < userPages, ∀ v < userPages, present (M.pte pgdir u) = true →
      present (M'.pte d v) = true → pageOf (M.pte pgdir u) ≠ pageOf (M'.pte d v)) ∧
    (∀ v < 2 ^ 20, M'.pte pgdir v = M.pte pgdir v) ∧
    ∀ g ∈ M.held pgdir, M'.page g = M.page g := by
  have hspace' : ∀ v < pagesBetween 0 sz, present (M.pte pgdir v) = true := fun v hv =>
    hspace v (mul_pgsize_lt_iff.mpr hv)
  have hal : ∀ f ∈ M.free, L.Allocatable f := fun f hf => hs.takes_free hf
  have hlen : 65 ≤ M.free.length := by
    by_contra hlt
    obtain ⟨M'', hrun', -⟩ := copyuvm_noDir sz hs (not_le.mp hlt)
    rw [hrun'] at hrun
    cases hrun
  have hreq : (copyRequests sz).drop (M.free.length - 65) = [] := by
    rcases hreq : (copyRequests sz).drop (M.free.length - 65) with _ | ⟨r, rest⟩
    · rfl
    rcases r with _ | _
    · obtain ⟨M'', hrun', -⟩ := copyuvm_noPage hs hspace' hsz hlen hreq
      rw [hrun'] at hrun
      cases hrun
    · obtain ⟨f, M'', hrun', -⟩ := copyuvm_noTable hs hspace' hsz hlen hreq
      rw [hrun'] at hrun
      cases hrun
  obtain ⟨d', M₁, M'', hrun', hM₁, hM''⟩ := copyuvm_copied hs hspace' hsz hlen hreq
  obtain ⟨hd, rfl⟩ := Prod.mk.inj (Except.ok.inj (hrun'.symm.trans hrun))
  obtain rfl := Option.some.inj hd
  have hs₁ := hM₁.sound hs.free_nodup hal
  have hkept := (Kept.of_newDir hs hM₁).filled hM''
  have hpages := pagesBetween_le hsz.le
  have hout : ∀ v < userPages, pagesBetween 0 sz ≤ v → present (M''.pte d' v) = false := by
    intro v hv hle
    rw [hM''.pte v (userPages_lt hv) (by omega), hM₁.pte v (userPages_lt hv), kernelPte_user L hv]
    rfl
  have hin : ∀ v < pagesBetween 0 sz, present (M''.pte d' v) = true ∧
      flags (M''.pte d' v) = flags (M.pte pgdir v) ∧ pageOf (M''.pte d' v) ∈ M.free ∧
      M''.page (pageOf (M''.pte d' v)) = M.page (pageOf (M.pte pgdir v)) := by
    intro v hv
    have hflags : flags (M.pte pgdir v) < pgsize := Nat.mod_lt _ (by decide)
    obtain ⟨f, hf, hpte, hpage⟩ := hM''.filled v ⟨Nat.zero_le v, by omega⟩
    rw [hpte, flags_entry hflags, pageOf_entry hflags, flags_or_pteP (hspace' v hv)]
    exact ⟨present_entry, rfl, hM₁.suffix.subset hf, hpage⟩
  refine ⟨fun v hv => hin v (mul_pgsize_lt_iff.mp hv), fun v hv hle => hout v hv ?_, ?_, ?_,
    fun v hv => hkept.pte hv, fun g hg => (hkept g hg).1⟩
  · by_contra hlt
    exact absurd (mul_pgsize_lt_iff.mpr (not_le.mp hlt)) (not_lt.mpr hle)
  · intro u hu v hv hpu hpv he
    exact pageOf_inj (Multiset.nodup_add.mp (hM''.sound hs₁).held_nodup).2.1 hu hv hpu hpv he
  · intro u hu v hv hpu hpv he
    have hv' : v < pagesBetween 0 sz := by
      by_contra hge
      rw [hout v hv (not_lt.mp hge)] at hpv
      cases hpv
    have hfree := (hin v hv').2.2.1
    rw [← he] at hfree
    exact hs.notMem_held hfree (Multiset.mem_add.mpr (.inr (mem_pages.mpr ⟨u, hu, hpu, rfl⟩)))

/-- A process of one page has a copy. -/
theorem copyuvm_duplicates_page :
    ∃ M d M', Sound someLayout M 1000 ∧ copyuvm someLayout M 1000 4096 = .ok (some d, M') ∧
      M'.page (pageOf (M'.pte d 0)) = M.page (pageOf (M.pte 1000 0)) := by
  obtain ⟨M, hs, hspace, hlen⟩ := exists_onePage (show (1000 :: 1001 :: List.range' 1002 70).Nodup by decide +kernel)
    (by decide +kernel) (by decide)
  have hlen' : M.free.length = 69 := Nat.add_right_cancel hlen
  have hpages : ∀ v < pagesBetween 0 4096, present (M.pte 1000 v) = true := fun v hv =>
    (hspace v (hv.trans (by decide))).mpr hv
  obtain ⟨d, M₁, M', hrun, -⟩ := copyuvm_copied hs hpages (by decide)
    (by omega) (by rw [hlen']; decide)
  refine ⟨M, d, M', hs, hrun, ?_⟩
  exact ((copyuvm_duplicates someLayout M 1000 4096 hs (by decide)
    (fun v hv => hpages v (mul_pgsize_lt_iff.mp hv)) d M' hrun).1 0 (by decide)).2.2.2

end Xv6.Vm.Mem
