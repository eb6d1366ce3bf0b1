import Xv6.Vm.Fill

/-!
# `allocuvm` and `growproc`

`allocuvm` fills a range of pages, and gives up if there is no page.  It does not look at what
`mappages` returns, so that there are four outcomes, which the requests that find an empty free
list tell apart:

* `allocuvm_filled` --- there are none: the range is mapped.
* `allocuvm_noPage` --- the first is for a page: all is undone, and `0` is returned.
* `allocuvm_noTable` --- the first is for a page table and others follow: the page that was to
  be mapped is lost, and the next request, for a page, fails; the rest is undone, and `0` is
  returned.
* `allocuvm_lastTable` --- it is the last one, for a page table: the size is returned although
  the last page is not mapped.

`allocuvm_exact_iff` and `growproc_exact_iff` follow.  For `growproc` there is a second trap:
`0` is both a size and the mark of a failure.
-/

namespace Xv6.Vm.Mem

variable {L : Layout} {M M' M'' : Mem} {d s e k t u v j f g n x oldsz newsz sz : ℕ}

/-! ## Undoing -/

/-- What `lost` does not have is as before, but that page tables may have come. -/
structure Undone (d : ℕ) (lost : Multiset ℕ) (M M' : Mem) : Prop where
  mapping : ∀ v < userPages, M'.mapping d v = M.mapping d v
  kernel : ∀ v < 2 ^ 20, userPages ≤ v → M'.pte d v = M.pte d v
  total : (M'.free : Multiset ℕ) + M'.held d + lost = M.free + M.held d
  page : ∀ g ∉ M.free, g ∉ M.nodes d → M'.page g = M.page g

variable {lost : Multiset ℕ}

theorem Undone.nodes_total (h : Undone d lost M M') :
    (M'.free : Multiset ℕ) + M'.nodes d + lost = M.free + M.nodes d := by
  have htotal := h.total
  rw [held, held, pages_congr_mapping h.mapping] at htotal
  refine add_right_cancel (b := M.pages d) ?_
  rw [add_assoc (M.free : Multiset ℕ), ← htotal]
  abel

theorem pagesBetween_mono (h : oldsz ≤ newsz) : pagesBetween 0 oldsz ≤ pagesBetween 0 newsz := by
  simp only [pagesBetween, pgsize]
  omega

theorem pagesBetween_pgroundup (hle : oldsz ≤ newsz) (hnew : newsz ≤ kernbase) :
    pagesBetween (pgroundup oldsz) newsz = pagesBetween 0 newsz - pagesBetween 0 oldsz := by
  rw [pgroundup_eq (hle.trans hnew)]
  simp only [pagesBetween, pgsize]
  omega

theorem deallocuvm_begun (hlt : oldsz < newsz) (hnew : newsz ≤ kernbase) (hs : Sound L M d)
    (htab : (∀ v, pagesBetween 0 oldsz ≤ v → v < pagesBetween 0 newsz →
      present (M.pte d v) = false) ∨ (M.table d (pagesBetween 0 oldsz / nptentries)).isSome) :
    ∃ M', deallocuvm L M d newsz oldsz = .ok (oldsz, M') ∧
      Cleared d (pagesBetween 0 oldsz) (pagesBetween 0 newsz) M M' := by
  refine deallocuvm_ok hlt hnew hs.held_nodup fun v hv hv' hp => ⟨?_, ?_⟩
  · refine hs.takes_held (Multiset.mem_add.mpr (.inr (mem_pages.mpr ⟨v, ?_, hp, rfl⟩)))
    exact hv'.trans_le (pagesBetween_le hnew)
  · rcases htab with habs | htab
    · rw [habs v hv hv'] at hp
      cases hp
    · obtain ⟨t, ht⟩ := Option.isSome_iff_exists.mp htab
      exact not_skipped_of_table ht

/-- `M₁` is `M` with pages taken off the free list, which may have been filled. -/
structure Dropped (d : ℕ) (lost : Multiset ℕ) (M M₁ : Mem) : Prop where
  free : (M₁.free : Multiset ℕ) + lost = M.free
  pte : ∀ u < 2 ^ 20, M₁.pte d u = M.pte d u
  table : ∀ j, M₁.table d j = M.table d j
  page : ∀ g ∉ M.free, M₁.page g = M.page g

theorem Dropped.refl (M : Mem) : Dropped d 0 M M where
  free := add_zero _
  pte _ _ := rfl
  table _ := rfl
  page _ _ := rfl

theorem dropped_taken (hs : Sound L M d) (h : M.free = [f]) (b : Bytes pgsize) :
    Dropped d {f} M (M.taken f [] b) where
  free := by
    rw [h]
    rfl
  pte u hu := pte_taken hs h hu
  table j := table_taken hs h j
  page g hg := by
    refine page_setPage_of_ne ?_
    rintro rfl
    rw [h] at hg
    exact hg List.mem_cons_self

theorem Dropped.nodes_eq (h : Dropped d lost M M') : M'.nodes d = M.nodes d :=
  nodes_congr fun j _ => h.table j

theorem Dropped.held_eq (h : Dropped d lost M M') : M'.held d = M.held d := by
  rw [held, held, h.nodes_eq, pages_congr fun u hu => h.pte u (userPages_lt hu)]

theorem undone_of_cleared {M₁ : Mem} {b : ℕ → Bytes pgsize} {perm : ℕ → ℕ}
    (hfill : Filled d (fun u => s ≤ u ∧ u < s + k) b perm M M') (hperm : ∀ u, perm u < pgsize)
    (hdrop : Dropped d lost M' M₁) (hclear : Cleared d s e M₁ M'') (he : e ≤ userPages)
    (hke : s + k ≤ e) (habs : ∀ v, s ≤ v → v < e → present (M.pte d v) = false) :
    Undone d lost M M'' := by
  have hout : ∀ v < 2 ^ 20, ¬ (s ≤ v ∧ v < e) → M''.pte d v = M.pte d v := by
    intro v hv hno
    rw [hclear.pte v hv, if_neg fun h => hno h.1, hdrop.pte v hv, hfill.pte v hv]
    omega
  constructor
  · intro v hv
    by_cases hin : s ≤ v ∧ v < e
    · rw [mapping_eq_none.mpr (habs v hin.1 hin.2),
        mapping_eq_none.mpr (hclear.absent (userPages_lt hv) hin.1 hin.2)]
    · exact mapping_congr (hout v (userPages_lt hv) hin)
  · intro v hv hk
    exact hout v hv (by omega)
  · have hheld := hclear.held
    rw [hdrop.held_eq] at hheld
    rw [hclear.free, ← hfill.total, ← hdrop.free, hheld]
    abel
  · intro g hg hgn
    obtain ⟨hg', hgn'⟩ := hfill.notMem hg hgn
    rw [hclear.page g, hdrop.page g hg', hfill.page g hg hgn]
    · rwa [hdrop.nodes_eq]
    · intro hmem
      obtain ⟨v, hin, hp, rfl⟩ := mem_mapped.mp hmem
      have hv := userPages_lt (hin.2.trans_le he)
      rw [hdrop.pte v hv] at hp hg
      by_cases hvk : v < s + k
      · obtain ⟨f, hf, hpte, -⟩ := hfill.filled v ⟨hin.1, hvk⟩
        rw [hpte, pageOf_entry (hperm v)] at hg
        exact hg hf
      · rw [hfill.pte v hv (by omega), habs v hin.1 hin.2] at hp
        cases hp

/-! ## The loop of `allocuvm` -/

theorem allocFrom_round {n v f : ℕ} {fs : List ℕ} {done : Bool} (hfree : M.free = f :: fs)
    (hrun : (M.taken f fs Bytes.zero).mappages d (v * pgsize) pgsize (f * pgsize) (pteW ||| pteU) =
      .ok (done, M')) :
    allocFrom L d oldsz newsz (n + 1) (v * pgsize) M =
      allocFrom L d oldsz newsz n ((v + 1) * pgsize) M' := by
  have ha : v * pgsize + pgsize = (v + 1) * pgsize := by rw [add_mul, one_mul]
  have hrun' : ((({ M with free := fs } : Mem).zero f).mappages d (v * pgsize) pgsize (f * pgsize)
      (pteW ||| pteU)) = .ok (done, M') := hrun
  rw [allocFrom, kalloc_cons hfree]
  simp only [hrun', ok_bind, ha]

theorem allocFrom_nil (hfree : M.free = []) {a : ℕ} :
    allocFrom L d oldsz newsz (n + 1) a M = (do
      let (_, M) ← deallocuvm L M d newsz oldsz
      pure (0, M)) := by
  rw [allocFrom, kalloc_nil hfree]

theorem lt_of_pages (hle : oldsz ≤ newsz) (h : pagesBetween 0 oldsz < pagesBetween 0 newsz) :
    oldsz < newsz := by
  rcases eq_or_lt_of_le hle with rfl | hlt
  · exact absurd h (lt_irrefl _)
  · exact hlt

theorem begun {b : ℕ → Bytes pgsize} {perm : ℕ → ℕ}
    (hfill : Filled d (fun u => s ≤ u ∧ u < s + k) b perm M M')
    (habs : ∀ v, s ≤ v → v < e → present (M.pte d v) = false) (he : e ≤ userPages) :
    (∀ v, s ≤ v → v < e → present (M'.pte d v) = false) ∨ (M'.table d (s / nptentries)).isSome := by
  rcases Nat.eq_zero_or_pos k with rfl | hk
  · left
    intro v hv hv'
    rw [hfill.pte v (userPages_lt (hv'.trans_le he)) (by omega)]
    exact habs v hv hv'
  · exact .inr (hfill.has s ⟨le_rfl, by omega⟩)

section Outcomes

variable (hle : oldsz ≤ newsz) (hnew : newsz < kernbase) (hs : Sound L M d)
  (habs : ∀ v, pagesBetween 0 oldsz ≤ v → v < pagesBetween 0 newsz → present (M.pte d v) = false)

/-- The requests that `allocuvm` makes. -/
def allocRequests (M : Mem) (d oldsz newsz : ℕ) : List Request :=
  requests (M.has d) (pagesBetween 0 newsz - pagesBetween 0 oldsz) (pagesBetween 0 oldsz)

include hle hnew hs habs

theorem allocuvm_advance :
    ∃ k ≤ pagesBetween 0 newsz - pagesBetween 0 oldsz, ∃ M',
      Filled d (fun u => pagesBetween 0 oldsz ≤ u ∧ u < pagesBetween 0 oldsz + k)
        (fun _ => Bytes.zero) (fun _ => pteW ||| pteU) M M' ∧
      allocuvm L M d oldsz newsz =
        allocFrom L d oldsz newsz (pagesBetween 0 newsz - pagesBetween 0 oldsz - k)
          ((pagesBetween 0 oldsz + k) * pgsize) M' ∧
      (M.allocRequests d oldsz newsz).drop M.free.length =
        (requests (M'.has d) (pagesBetween 0 newsz - pagesBetween 0 oldsz - k)
          (pagesBetween 0 oldsz + k)).drop M'.free.length ∧
      (k = pagesBetween 0 newsz - pagesBetween 0 oldsz ∨ M'.free = [] ∨
        (∃ f, M'.free = [f]) ∧ M'.table d ((pagesBetween 0 oldsz + k) / nptentries) = none) := by
  have hmono := pagesBetween_mono hle
  have hpages := pagesBetween_le hnew.le
  obtain ⟨k, hk, M', hM', -, hloop, hreq, hend⟩ :=
    advance (fun n v M => allocFrom L d oldsz newsz n (v * pgsize) M) (fun _ => True)
      (fun _ => Bytes.zero) (fun _ => pteW ||| pteU) (fun _ _ => trivial) le_rfl
      (fun _ _ hfree hrun => allocFrom_round hfree hrun) (fun _ => by decide) trivial hs
      (v := pagesBetween 0 oldsz) (n := pagesBetween 0 newsz - pagesBetween 0 oldsz) (by omega)
      fun u hu hu' => habs u hu (by omega)
  refine ⟨k, hk, M', hM', ?_, hreq, hend⟩
  rw [allocuvm, if_neg (not_le.mpr hnew), if_neg (not_lt.mpr hle),
    pagesBetween_pgroundup hle hnew.le, pgroundup_eq (hle.trans hnew.le)]
  exact hloop

theorem allocuvm_filled (hreq : (M.allocRequests d oldsz newsz).drop M.free.length = []) :
    ∃ M', allocuvm L M d oldsz newsz = .ok (newsz, M') ∧
      Filled d (fun u => pagesBetween 0 oldsz ≤ u ∧ u < pagesBetween 0 newsz) (fun _ => Bytes.zero)
        (fun _ => pteW ||| pteU) M M' := by
  have hmono := pagesBetween_mono hle
  obtain ⟨k, hk, M', hM', hrun, hdrop, hend⟩ := allocuvm_advance hle hnew hs habs
  obtain ⟨-, rfl⟩ | ⟨m, rest, hpage, -⟩ | ⟨m, f, has, htable, -⟩ := next_request hk hdrop hend
  · refine ⟨M', ?_, hM'.congr fun u => by omega⟩
    rw [hrun, Nat.sub_self]
    rfl
  · cases hreq.symm.trans hpage
  · cases hreq.symm.trans htable

theorem allocuvm_noPage {rest : List Request}
    (hreq : (M.allocRequests d oldsz newsz).drop M.free.length = .page :: rest) :
    ∃ M', allocuvm L M d oldsz newsz = .ok (0, M') ∧ Undone d 0 M M' := by
  have hmono := pagesBetween_mono hle
  have hpages := pagesBetween_le hnew.le
  obtain ⟨k, hk, M', hM', hrun, hdrop, hend⟩ := allocuvm_advance hle hnew hs habs
  obtain ⟨hdone, -⟩ | ⟨m, rest', -, hm, hnil⟩ | ⟨m, f, has, htable, -⟩ := next_request hk hdrop hend
  · cases hreq.symm.trans hdone
  · obtain ⟨M'', hrun', hM''⟩ := deallocuvm_begun (lt_of_pages hle (by omega)) hnew.le
      (hM'.sound hs) (begun hM' habs hpages)
    refine ⟨M'', ?_, undone_of_cleared hM' (fun _ => by decide) (.refl M') hM'' hpages (by omega) habs⟩
    rw [hrun, hm, allocFrom_nil hnil, hrun']
    rfl
  · cases hreq.symm.trans htable

theorem allocuvm_noTable {rest : List Request}
    (hreq : (M.allocRequests d oldsz newsz).drop M.free.length = .table :: rest) :
    ∃ k M' f, pagesBetween 0 oldsz + k < pagesBetween 0 newsz ∧
      Filled d (fun u => pagesBetween 0 oldsz ≤ u ∧ u < pagesBetween 0 oldsz + k)
        (fun _ => Bytes.zero) (fun _ => pteW ||| pteU) M M' ∧ M'.free = [f] ∧
      allocuvm L M d oldsz newsz =
        allocFrom L d oldsz newsz (pagesBetween 0 newsz - pagesBetween 0 oldsz - k - 1)
          ((pagesBetween 0 oldsz + k + 1) * pgsize) (M'.taken f [] Bytes.zero) ∧
      (rest = [] ↔ pagesBetween 0 oldsz + k + 1 = pagesBetween 0 newsz) := by
  have hmono := pagesBetween_mono hle
  have hpages := pagesBetween_le hnew.le
  obtain ⟨k, hk, M', hM', hrun, hdrop, hend⟩ := allocuvm_advance hle hnew hs habs
  obtain ⟨hdone, -⟩ | ⟨m, rest', hpage, -⟩ | ⟨m, f, has, htable, hm, hf, hnone⟩ := next_request hk hdrop hend
  · cases hreq.symm.trans hdone
  · cases hreq.symm.trans hpage
  · refine ⟨k, M', f, by omega, hM', hf, ?_, ?_⟩
    · have habs' : present (M'.pte d (pagesBetween 0 oldsz + k)) = false := by
        rw [hM'.pte _ (userPages_lt (by omega)) (by omega)]
        exact habs _ (by omega) (by omega)
      rcases addPage_spec (hM'.sound hs) (by omega) habs' (show pteW ||| pteU < pgsize by decide) hf
        Bytes.zero with ⟨-, -, hmap⟩ | ⟨M₁, -, -, hlen⟩
      · rw [hrun, hm, allocFrom_round hf hmap]
        rfl
      · rw [hnone, hf] at hlen
        simp at hlen
    · rw [(List.cons.inj (hreq.symm.trans htable)).2, requests_eq_nil]
      omega

/-- The page table that is missing is not for the last page: the loop finds no page for the next
one and undoes what it has done, but for the page that it could not map. -/
theorem allocuvm_lost {rest : List Request} (hrest : rest ≠ [])
    (hreq : (M.allocRequests d oldsz newsz).drop M.free.length = .table :: rest) :
    0 < newsz ∧ ∃ f M', allocuvm L M d oldsz newsz = .ok (0, M') ∧ Undone d {f} M M' := by
  have hpages := pagesBetween_le hnew.le
  obtain ⟨k, M', f, hk, hM', hf, hrun, hiff⟩ := allocuvm_noTable hle hnew hs habs hreq
  have hlt : pagesBetween 0 oldsz + k + 1 < pagesBetween 0 newsz :=
    lt_of_le_of_ne hk fun h => hrest (hiff.mpr h)
  have hs' := hM'.sound hs
  have hdrop := dropped_taken hs' hf Bytes.zero
  have hbegun := begun hM' habs hpages
  obtain ⟨m, hm⟩ : ∃ m, pagesBetween 0 newsz - pagesBetween 0 oldsz - k - 1 = m + 1 :=
    ⟨_, (Nat.succ_pred_eq_of_pos (by omega)).symm⟩
  have hold : oldsz < newsz := lt_of_pages hle (by omega)
  obtain ⟨M'', hrun', hM''⟩ := deallocuvm_begun (M := M'.taken f [] Bytes.zero) hold hnew.le
    (sound_taken hs' hf) (by
      rw [hdrop.table]
      refine hbegun.imp_left fun h v hv hv' => ?_
      rw [hdrop.pte v (userPages_lt (hv'.trans_le hpages))]
      exact h v hv hv')
  refine ⟨by omega, f, M'', ?_,
    undone_of_cleared hM' (fun _ => by decide) hdrop hM'' hpages (by omega) habs⟩
  rw [hrun, hm, allocFrom_nil rfl, hrun']
  rfl

theorem allocuvm_lastTable
    (hreq : (M.allocRequests d oldsz newsz).drop M.free.length = [.table]) :
    ∃ v M', pagesBetween 0 oldsz ≤ v ∧ v < pagesBetween 0 newsz ∧
      allocuvm L M d oldsz newsz = .ok (newsz, M') ∧ present (M'.pte d v) = false := by
  have hpages := pagesBetween_le hnew.le
  obtain ⟨k, M', f, hk, hM', hf, hrun, hiff⟩ := allocuvm_noTable hle hnew hs habs hreq
  have hlast := hiff.mp rfl
  refine ⟨pagesBetween 0 oldsz + k, M'.taken f [] Bytes.zero, by omega, hk, ?_, ?_⟩
  · rw [hrun, show pagesBetween 0 newsz - pagesBetween 0 oldsz - k - 1 = 0 by omega]
    rfl
  · have hlt := userPages_lt (hk.trans_le hpages)
    rw [pte_taken (hM'.sound hs) hf hlt, hM'.pte _ hlt (by omega)]
    exact habs _ (by omega) hk

end Outcomes

/-! ## `allocuvm` -/

/-- `allocuvm` returns the new size with the whole range mapped to distinct pages of zeroes that
user code may write, or `0` with the mappings as before and all pages that it has taken, but for
page tables, on the free list again. -/
def AllocExact (L : Layout) (M : Mem) (d oldsz newsz : ℕ) : Prop :=
  ∃ r M', allocuvm L M d oldsz newsz = .ok (r, M') ∧
    ((r = newsz ∧
      (∀ v, pgroundup oldsz ≤ v * pgsize → v * pgsize < newsz →
        present (M'.pte d v) = true ∧ writable (M'.pte d v) = true ∧ user (M'.pte d v) = true ∧
          M'.page (pageOf (M'.pte d v)) = Bytes.zero) ∧
      ∀ u v, pgroundup oldsz ≤ u * pgsize → u * pgsize < newsz → pgroundup oldsz ≤ v * pgsize →
        v * pgsize < newsz → pageOf (M'.pte d u) = pageOf (M'.pte d v) → u = v) ∨
    (r = 0 ∧ (∀ v < userPages, M'.mapping d v = M.mapping d v) ∧
      (M'.free : Multiset ℕ) + M'.nodes d = M.free + M.nodes d))

section AllocExact

variable (hle : oldsz ≤ newsz) (hnew : newsz < kernbase) (hs : Sound L M d)
  (habs : ∀ v, pagesBetween 0 oldsz ≤ v → v < pagesBetween 0 newsz → present (M.pte d v) = false)

include hle hnew hs habs

theorem allocExact_of_filled (hreq : (M.allocRequests d oldsz newsz).drop M.free.length = []) :
    AllocExact L M d oldsz newsz := by
  have hpages := pagesBetween_le hnew.le
  obtain ⟨M', hrun, hM'⟩ := allocuvm_filled hle hnew hs habs hreq
  have hnodup : (M'.pages d).Nodup := (Multiset.nodup_add.mp (hM'.sound hs).held_nodup).2.1
  refine ⟨newsz, M', hrun, .inl ⟨rfl, fun v hv hv' => ?_, fun u v hu hu' hv hv' he => ?_⟩⟩
  · rw [pgroundup_le_iff (hle.trans hnew.le)] at hv
    obtain ⟨f, -, hpte, hpage⟩ := hM'.filled v ⟨hv, mul_pgsize_lt_iff.mp hv'⟩
    rw [hpte, pageOf_entry (by decide), writable_entry, user_entry]
    exact ⟨present_entry, rfl, rfl, hpage⟩
  · rw [pgroundup_le_iff (hle.trans hnew.le)] at hu hv
    rw [mul_pgsize_lt_iff] at hu' hv'
    exact pageOf_inj hnodup (hu'.trans_le hpages) (hv'.trans_le hpages) (hM'.present ⟨hu, hu'⟩)
      (hM'.present ⟨hv, hv'⟩) he

/-- A page table that cannot be had spoils the result. -/
theorem not_allocExact_of_table (rest : List Request)
    (hreq : (M.allocRequests d oldsz newsz).drop M.free.length = .table :: rest) :
    ¬ AllocExact L M d oldsz newsz := by
  rintro ⟨r, M', hrun, hres⟩
  by_cases hrest : rest = []
  · subst hrest
    obtain ⟨v, M'', hv, hv', hrun', hp⟩ := allocuvm_lastTable hle hnew hs habs hreq
    obtain ⟨rfl, rfl⟩ := Prod.mk.inj (Except.ok.inj (hrun.symm.trans hrun'))
    rcases hres with ⟨-, hall, -⟩ | ⟨rfl, -, -⟩
    · have hpv := (hall v ((pgroundup_le_iff (hle.trans hnew.le)).mpr hv) (mul_pgsize_lt_iff.mpr hv')).1
      rw [hp] at hpv
      cases hpv
    · exact absurd hv' (Nat.not_lt_zero v)
  · obtain ⟨hpos, f, M'', hrun', hM''⟩ := allocuvm_lost hle hnew hs habs hrest hreq
    obtain ⟨rfl, rfl⟩ := Prod.mk.inj (Except.ok.inj (hrun.symm.trans hrun'))
    rcases hres with ⟨rfl, -, -⟩ | ⟨-, -, hfree⟩
    · exact absurd hpos (lt_irrefl 0)
    · have htotal := hM''.nodes_total
      rw [hfree] at htotal
      have hcard := congrArg Multiset.card htotal
      rw [Multiset.card_add, Multiset.card_singleton] at hcard
      omega

end AllocExact

/-- **`allocuvm` keeps its promise if and only if the first request that `kalloc` cannot meet,
if there is one, is not for a page table.** -/
theorem allocuvm_exact_iff (L : Layout) (M : Mem) (d oldsz newsz : ℕ) (hle : oldsz ≤ newsz)
    (hnew : newsz < kernbase) (hs : Sound L M d)
    (habs : ∀ v, pgroundup oldsz ≤ v * pgsize → v * pgsize < newsz → present (M.pte d v) = false) :
    AllocExact L M d oldsz newsz ↔
      (M.allocRequests d oldsz newsz)[M.free.length]? ≠ some .table := by
  have habs' : ∀ v, pagesBetween 0 oldsz ≤ v → v < pagesBetween 0 newsz →
      present (M.pte d v) = false := fun v hv hv' =>
    habs v ((pgroundup_le_iff (hle.trans hnew.le)).mpr hv) (mul_pgsize_lt_iff.mpr hv')
  rw [← List.head?_drop]
  rcases hreq : (M.allocRequests d oldsz newsz).drop M.free.length with _ | ⟨r, rest⟩
  · exact iff_of_true (allocExact_of_filled hle hnew hs habs' hreq) (by simp)
  rcases r with _ | _
  · refine iff_of_true ?_ (by simp)
    obtain ⟨M', hrun, hM'⟩ := allocuvm_noPage hle hnew hs habs' hreq
    have htotal := hM'.nodes_total
    rw [add_zero] at htotal
    exact ⟨0, M', hrun, .inr ⟨rfl, hM'.mapping, htotal⟩⟩
  · exact iff_of_false (not_allocExact_of_table hle hnew hs habs' _ hreq) (by simp)

/-- An empty directory, and what is free. -/
def bareMem (free : List ℕ) : Mem := ({ page := fun _ => Bytes.zero, free := free } : Mem).zero 1000

theorem bareMem_sound {free : List ℕ} (hn : (1000 :: free).Nodup)
    (hal : ∀ f ∈ 1000 :: free, someLayout.Allocatable f) : Sound someLayout (bareMem free) 1000 :=
  sound_zero (M := { page := fun _ => Bytes.zero, free := 1000 :: free }) hn hal rfl

theorem bareMem_absent (free : List ℕ) (v : ℕ) : present ((bareMem free).pte 1000 v) = false := by
  rw [bareMem, pte_zero]
  rfl

theorem bareMem_has (free : List ℕ) : (bareMem free).has 1000 = fun _ => false := by
  funext j
  rw [Mem.has, bareMem, table_zero]
  rfl

/-- With one page left there is a page for the first byte, but none for its page table. -/
theorem allocuvm_loses_page :
    (0 ≤ 1 ∧ 1 < kernbase ∧ Sound someLayout (bareMem [1001]) 1000 ∧
      ∀ v, pgroundup 0 ≤ v * pgsize → v * pgsize < 1 →
        present ((bareMem [1001]).pte 1000 v) = false) ∧
    ¬ AllocExact someLayout (bareMem [1001]) 1000 0 1 := by
  have hs : Sound someLayout (bareMem [1001]) 1000 := bareMem_sound (by decide) (by decide)
  refine ⟨⟨by decide, by decide, hs, fun v _ _ => bareMem_absent _ v⟩, ?_⟩
  refine not_allocExact_of_table (by decide) (by decide) hs (fun v _ _ => bareMem_absent _ v) [] ?_
  rw [allocRequests, bareMem_has]
  decide

/-- With two pages left the first byte can be had. -/
theorem allocuvm_exact_two : AllocExact someLayout (bareMem [1001, 1002]) 1000 0 1 := by
  refine (allocuvm_exact_iff someLayout (bareMem [1001, 1002]) 1000 0 1 (by decide) (by decide)
    (bareMem_sound (by decide) (by decide)) fun v _ _ => bareMem_absent _ v).mpr ?_
  rw [allocRequests, bareMem_has]
  decide

/-! ## `growproc` -/

/-- The pages below `sz` are mapped, and no others below `KERNBASE`. -/
def Space (M : Mem) (d sz : ℕ) : Prop :=
  ∀ v < userPages, present (M.pte d v) = true ↔ v < pagesBetween 0 sz

theorem Space.absent (h : M.Space d sz) (hv : v < userPages) (hsz : pagesBetween 0 sz ≤ v) :
    present (M.pte d v) = false := by
  rcases hp : present (M.pte d v)
  · rfl
  · exact absurd ((h v hv).mp hp) (not_lt.mpr hsz)

/-- `growproc` returns `0` and the size is exactly the new one, with the old pages as they were and
the new ones zero, or it returns `-1` and nothing has changed. -/
def GrowExact (L : Layout) (M : Mem) (d sz : ℕ) (n : ℤ) : Prop :=
  ∃ r sz' M', growproc L M d sz n = .ok (r, sz', M') ∧
    ((r = 0 ∧ (sz' : ℤ) = sz + n ∧ M'.Space d sz' ∧
      (∀ v < pagesBetween 0 (min sz sz'),
        M'.page (pageOf (M'.pte d v)) = M.page (pageOf (M.pte d v))) ∧
      ∀ v, pagesBetween 0 sz ≤ v → v < pagesBetween 0 sz' →
        M'.page (pageOf (M'.pte d v)) = Bytes.zero) ∨
    (r = -1 ∧ sz' = sz ∧ ∀ v < userPages, M'.mapping d v = M.mapping d v ∧
      (present (M.pte d v) = true →
        M'.page (pageOf (M.pte d v)) = M.page (pageOf (M.pte d v)))))

theorem Sound.notMem_of_present (hs : Sound L M d) (hv : v < userPages)
    (hp : present (M.pte d v) = true) :
    pageOf (M.pte d v) ∉ M.free ∧ pageOf (M.pte d v) ∉ M.nodes d :=
  hs.notMem_of_mapped (mem_pages.mpr ⟨v, hv, hp, rfl⟩)

section Growproc

variable {m : ℕ} (hs : Sound L M d) (hsz : sz ≤ kernbase) (hspace : M.Space d sz)

section Growing

variable (hm : 0 < m)

include hm in
theorem growproc_grow (hlt : sz + m < 2 ^ 32) :
    growproc L M d sz (m : ℤ) = (do
      let (r, M) ← allocuvm L M d sz (sz + m)
      if r = 0 then pure (-1, sz, M) else pure (0, r, M)) := by
  have hnew : (((sz : ℤ) + m) % 2 ^ 32).toNat = sz + m := by omega
  rw [growproc, if_pos (Int.natCast_pos.mpr hm), hnew]

include hs in
theorem growExact_of_undone {n : ℤ} (hrun : growproc L M d sz n = .ok (-1, sz, M'))
    (hM' : Undone d lost M M') : GrowExact L M d sz n := by
  refine ⟨-1, sz, M', hrun, .inr ⟨rfl, rfl, fun v hv => ⟨hM'.mapping v hv, fun hp => ?_⟩⟩⟩
  obtain ⟨hf, hn⟩ := hs.notMem_of_present hv hp
  exact hM'.page _ hf hn

include hs hm hspace in
theorem growExact_grow_iff (hlt : sz + m < 2 ^ 32) :
    GrowExact L M d sz (m : ℤ) ↔
      (sz + m < kernbase → (M.allocRequests d sz (sz + m)).drop M.free.length ≠ [.table]) := by
  have hgrow := growproc_grow (L := L) (M := M) (d := d) hm hlt
  rcases Nat.lt_or_ge (sz + m) kernbase with hnew | hnew
  swap
  · refine iff_of_true ?_ fun h => absurd h (not_lt.mpr hnew)
    refine growExact_of_undone hs ?_ (show Undone d 0 M M from ⟨fun _ _ => rfl, fun _ _ _ => rfl,
      add_zero _, fun _ _ _ => rfl⟩)
    rw [hgrow, allocuvm, if_pos hnew]
    rfl
  have hle : sz ≤ sz + m := Nat.le_add_right sz m
  have hpages := pagesBetween_le hnew.le
  have hne : sz + m ≠ 0 := by omega
  have habs : ∀ v, pagesBetween 0 sz ≤ v → v < pagesBetween 0 (sz + m) →
      present (M.pte d v) = false := fun v hv hv' => hspace.absent (hv'.trans_le hpages) hv
  rw [forall_prop_of_true hnew]
  rcases hreq : (M.allocRequests d sz (sz + m)).drop M.free.length with _ | ⟨r, rest⟩
  · refine iff_of_true ?_ (by simp)
    obtain ⟨M', hrun, hM'⟩ := allocuvm_filled hle hnew hs habs hreq
    have hmin : min sz (sz + m) = sz := Nat.min_eq_left hle
    refine ⟨0, sz + m, M', ?_, .inl ⟨rfl, by omega, fun v hv => ?_, fun v hv => ?_, fun v hv hv' => ?_⟩⟩
    · rw [hgrow, hrun]
      exact if_neg hne
    · by_cases hin : pagesBetween 0 sz ≤ v ∧ v < pagesBetween 0 (sz + m)
      · exact iff_of_true (hM'.present hin) hin.2
      · have hmono := pagesBetween_mono hle
        rw [hM'.pte v (userPages_lt hv) hin, hspace v hv]
        omega
    · rw [hmin] at hv
      have hvu := hv.trans_le (pagesBetween_le (hle.trans hnew.le))
      obtain ⟨hf, hn⟩ := hs.notMem_of_present hvu ((hspace v hvu).mpr hv)
      rw [hM'.pte v (userPages_lt hvu) (by omega), hM'.page _ hf hn]
    · obtain ⟨f, -, hpte, hpage⟩ := hM'.filled v ⟨hv, hv'⟩
      rw [hpte, pageOf_entry (by decide), hpage]
  rcases r with _ | _
  · refine iff_of_true ?_ (by simp)
    obtain ⟨M', hrun, hM'⟩ := allocuvm_noPage hle hnew hs habs hreq
    refine growExact_of_undone hs ?_ hM'
    rw [hgrow, hrun]
    rfl
  by_cases hrest : rest = []
  · subst hrest
    refine iff_of_false ?_ (by simp)
    obtain ⟨v, M', hv, hv', hrun, hp⟩ := allocuvm_lastTable hle hnew hs habs hreq
    rintro ⟨r, sz', M'', hrun', hres⟩
    have hok : growproc L M d sz (m : ℤ) = .ok (0, sz + m, M') := by
      rw [hgrow, hrun]
      exact if_neg hne
    obtain ⟨rfl, he⟩ := Prod.mk.inj (Except.ok.inj (hrun'.symm.trans hok))
    obtain ⟨rfl, rfl⟩ := Prod.mk.inj he
    rcases hres with ⟨-, -, hspace', -⟩ | ⟨h, -⟩
    · rw [(hspace' v (hv'.trans_le hpages)).mpr hv'] at hp
      cases hp
    · exact absurd h (by decide)
  · refine iff_of_true ?_ (by simpa using hrest)
    obtain ⟨-, f, M', hrun, hM'⟩ := allocuvm_lost hle hnew hs habs hrest hreq
    refine growExact_of_undone hs ?_ hM'
    rw [hgrow, hrun]
    rfl

end Growing

section Shrinking

theorem deallocuvm_space (hs : Sound L M d) (hsz : sz ≤ kernbase) (hspace : M.Space d sz) {new : ℕ}
    (hlt : new < sz) :
    ∃ M', deallocuvm L M d sz new = .ok (new, M') ∧
      Cleared d (pagesBetween 0 new) (pagesBetween 0 sz) M M' := by
  refine deallocuvm_begun hlt hsz hs ?_
  have hpages := pagesBetween_le hsz
  rcases Nat.lt_or_ge (pagesBetween 0 new) (pagesBetween 0 sz) with h | h
  · obtain ⟨t, ht⟩ := exists_table ((hspace _ (h.trans_le hpages)).mpr h)
    right
    rw [ht]
    rfl
  · exact .inl fun v hv hv' => by omega

theorem growproc_shrink {n : ℤ} (hn : n < 0) :
    growproc L M d sz n = (do
      let (r, M) ← deallocuvm L M d sz (((sz : ℤ) + n) % 2 ^ 32).toNat
      if r = 0 then pure (-1, sz, M) else pure (0, r, M)) := by
  rw [growproc, if_neg (not_lt.mpr hn.le), if_pos hn]

include hs hsz hspace in
theorem growExact_shrink_iff {n : ℤ} (hn : n < 0) (hmin : -2 ^ 31 ≤ n) :
    GrowExact L M d sz n ↔ 0 < sz + n ∨ sz = 0 := by
  have hpages := pagesBetween_le hsz
  have hbound : sz ≤ 2 ^ 31 := hsz
  rw [GrowExact, growproc_shrink hn]
  rcases lt_trichotomy 0 ((sz : ℤ) + n) with hpos | hzero | hneg
  · -- the size stays positive
    refine iff_of_true ?_ (.inl hpos)
    obtain ⟨new, hnew⟩ := Int.eq_ofNat_of_zero_le hpos.le
    have hto : (((sz : ℤ) + n) % 2 ^ 32).toNat = new := by omega
    have hlt : new < sz := by omega
    have hne : new ≠ 0 := by omega
    obtain ⟨M', hrun, hM'⟩ := deallocuvm_space hs hsz hspace hlt
    have hmono := pagesBetween_mono hlt.le
    refine ⟨0, new, M', ?_, .inl ⟨rfl, by omega, fun v hv => ?_, fun v hv => ?_, fun v hv hv' => ?_⟩⟩
    · rw [hto, hrun]
      exact if_neg hne
    · rcases Nat.lt_or_ge v (pagesBetween 0 new) with hvn | hvn
      · rw [hM'.pte v (userPages_lt hv), if_neg (by omega), hspace v hv]
        omega
      · refine iff_of_false ?_ (not_lt.mpr hvn)
        rcases Nat.lt_or_ge v (pagesBetween 0 sz) with hvs | hvs
        · rw [hM'.absent (userPages_lt hv) hvn hvs]
          exact Bool.false_ne_true
        · rw [hM'.pte v (userPages_lt hv), if_neg (by omega), hspace.absent hv hvs]
          exact Bool.false_ne_true
    · rw [Nat.min_eq_right hlt.le] at hv
      have hvu := hv.trans_le (hmono.trans hpages)
      have hp := (hspace v hvu).mpr (hv.trans_le hmono)
      rw [hM'.pte v (userPages_lt hvu), if_neg (by omega)]
      refine hM'.page _ (hs.notMem_of_present hvu hp).2 fun hmem => ?_
      obtain ⟨u, hu, hpu, he⟩ := mem_mapped.mp hmem
      have huv := pageOf_inj (Multiset.nodup_add.mp hs.held_nodup).2.1 (hu.2.trans_le hpages) hvu hpu
        hp he
      omega
    · omega
  · -- the new size is `0`, which is taken for a failure
    refine iff_of_false ?_ (by omega)
    have hto : (((sz : ℤ) + n) % 2 ^ 32).toNat = 0 := by omega
    have hlt : 0 < sz := by omega
    obtain ⟨M', hrun, hM'⟩ := deallocuvm_space hs hsz hspace hlt
    rintro ⟨r, sz', M'', hrun', hres⟩
    rw [hto, hrun] at hrun'
    obtain ⟨rfl, he⟩ := Prod.mk.inj (Except.ok.inj hrun')
    obtain ⟨rfl, rfl⟩ := Prod.mk.inj he
    rcases hres with ⟨h, -⟩ | ⟨-, -, hsame⟩
    · exact absurd h (by decide)
    · have hfirst : 0 < pagesBetween 0 sz := mul_pgsize_lt_iff.mp (by rwa [zero_mul])
      have hp := (hspace 0 (by decide)).mpr hfirst
      have hmap := (hsame 0 (by decide)).1
      rw [mapping_of_present hp, mapping_eq_none.mpr
        (hM'.absent (by decide) (Nat.zero_le _) hfirst)] at hmap
      cases hmap
  · -- the new size wraps, and `deallocuvm` leaves the old one
    have hge : sz ≤ (((sz : ℤ) + n) % 2 ^ 32).toNat := by omega
    rw [deallocuvm, if_pos hge, ok_bind]
    rcases Nat.eq_zero_or_pos sz with rfl | hpos
    · refine iff_of_true ?_ (.inr rfl)
      exact ⟨-1, 0, M, rfl, .inr ⟨rfl, rfl, fun v _ => ⟨rfl, fun _ => rfl⟩⟩⟩
    · refine iff_of_false ?_ (by omega)
      rintro ⟨r, sz', M'', hrun', hres⟩
      change (if sz = 0 then _ else _) = _ at hrun'
      rw [if_neg (Nat.pos_iff_ne_zero.mp hpos)] at hrun'
      obtain ⟨rfl, he⟩ := Prod.mk.inj (Except.ok.inj hrun')
      obtain ⟨rfl, rfl⟩ := Prod.mk.inj he
      rcases hres with ⟨-, h, -⟩ | ⟨h, -⟩
      · omega
      · exact absurd h (by decide)

end Shrinking

end Growproc

/-- **`growproc` is exact and atomic if and only if it does not shrink the process to nothing or
less, and the last request for a page table is not the one that fails.** -/
theorem growproc_exact_iff (L : Layout) (M : Mem) (d sz : ℕ) (n : ℤ) (hs : Sound L M d)
    (hsz : sz ≤ kernbase) (hspace : M.Space d sz) (hmin : -2 ^ 31 ≤ n) (hmax : n < 2 ^ 31) :
    GrowExact L M d sz n ↔
      (n < 0 → 0 < sz + n ∨ sz = 0) ∧
      (0 < n → sz + n < kernbase →
        (M.allocRequests d sz (sz + n).toNat).drop M.free.length ≠ [.table]) := by
  have hbound : sz ≤ 2 ^ 31 := hsz
  rcases lt_trichotomy n 0 with hneg | rfl | hpos
  · rw [growExact_shrink_iff hs hsz hspace hneg hmin]
    exact ⟨fun h => ⟨fun _ => h, fun hpos => absurd hpos (not_lt.mpr hneg.le)⟩, fun h => h.1 hneg⟩
  · refine iff_of_true ?_ ⟨fun h => absurd h (lt_irrefl _), fun h => absurd h (lt_irrefl _)⟩
    refine ⟨0, sz, M, rfl, .inl ⟨rfl, (add_zero _).symm, hspace, fun _ _ => rfl, ?_⟩⟩
    exact fun v hv hv' => by omega
  · obtain ⟨m, rfl⟩ := Int.eq_ofNat_of_zero_le hpos.le
    have hto : ((sz : ℤ) + (m : ℤ)).toNat = sz + m := by omega
    rw [growExact_grow_iff hs hspace (Int.natCast_pos.mp hpos) (by omega), hto]
    constructor
    · exact fun h => ⟨fun hneg => absurd hneg (not_lt.mpr hpos.le), fun _ hlt => h (by omega)⟩
    · exact fun h hlt => h.2 hpos (by omega)

theorem bareMem_space (free : List ℕ) : (bareMem free).Space 1000 0 := fun v _ => by
  rw [bareMem_absent]
  exact iff_of_false Bool.false_ne_true (Nat.not_lt_zero v)

theorem exists_onePage {f : ℕ} {fs : List ℕ} (hn : (1000 :: f :: fs).Nodup)
    (hal : ∀ g ∈ 1000 :: f :: fs, someLayout.Allocatable g) (hfs : fs ≠ []) :
    ∃ M, Sound someLayout M 1000 ∧ M.Space 1000 4096 ∧ M.free.length + 2 = (f :: fs).length := by
  have hs := bareMem_sound hn hal
  rcases addPage_spec (v := 0) hs (by decide) (bareMem_absent _ 0) (show pteW ||| pteU < pgsize by decide)
    rfl Bytes.zero with ⟨-, h, -⟩ | ⟨M, -, hM, hlen⟩
  · exact absurd h hfs
  · refine ⟨M, hM.sound hs, fun v hv => ?_, ?_⟩
    · rcases Nat.eq_zero_or_pos v with rfl | hpos
      · exact iff_of_true (hM.present rfl) (by decide)
      · rw [hM.pte v (userPages_lt hv) hpos.ne', bareMem_absent]
        refine iff_of_false Bool.false_ne_true fun h => ?_
        rw [← mul_pgsize_lt_iff] at h
        simp only [pgsize] at h
        omega
    · have hno : ((bareMem (f :: fs)).table 1000 (0 / nptentries)).isSome = false :=
        congrFun (bareMem_has _) _
      rw [hno] at hlen
      exact hlen

/-- A process of one page gives the page back: the page is freed, and the call fails. -/
theorem growproc_to_zero_fails :
    ∃ M, (Sound someLayout M 1000 ∧ 4096 ≤ kernbase ∧ M.Space 1000 4096) ∧
      ¬ GrowExact someLayout M 1000 4096 (-4096) := by
  obtain ⟨M, hs, hspace, -⟩ := exists_onePage (show [1000, 1001, 1002].Nodup by decide) (by decide)
    (by decide)
  refine ⟨M, ⟨hs, by decide, hspace⟩, ?_⟩
  rw [growExact_shrink_iff hs (by decide) hspace (by decide) (by decide)]
  decide

/-- An empty process grows to one page. -/
theorem growproc_exact_one : GrowExact someLayout (bareMem [1001, 1002]) 1000 0 4096 := by
  refine (growproc_exact_iff someLayout (bareMem [1001, 1002]) 1000 0 4096
    (bareMem_sound (by decide) (by decide)) (by decide) (bareMem_space _) (by decide)
    (by decide)).mpr ⟨fun h => absurd h (by decide), fun _ _ => ?_⟩
  rw [allocRequests, bareMem_has]
  decide

end Xv6.Vm.Mem
