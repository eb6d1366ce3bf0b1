import Xv6.Vm.Grow
import Xv6.Vm.Plan

/-!
# Loading a program

While `exec` builds an image, all that the new directory holds comes from the free list, and the
pages are mapped from address `0` on, as a `Room` says (`Loading`).

* `Loading.card_held` --- how many pages the directory holds.
-/

namespace Xv6.Vm

open List
open Multiset (card_add coe_card mem_add mem_coe nodup_of_le)

/-! ## Rooms -/

namespace Room

variable {s s' : Room} {new : ℕ}

theorem Sane.mapped_le (h : s.Sane) : s.mapped ≤ s.pages := by
  rcases h.whole with h | h <;> omega

theorem grow_sane (h : s.Sane) (hg : s.grow new = some s') : s'.Sane := by
  rw [grow] at hg
  split at hg
  · cases hg
  rename_i hnew
  split at hg
  · cases hg
    exact h
  rename_i hle
  have hmono : s.pages ≤ pagesBetween 0 new := Mem.pagesBetween_mono (not_lt.mp hle)
  split at hg
  · cases hg
  rename_i h0
  split at hg
  · rename_i hneed
    cases hg
    refine ⟨(not_le.mp hnew).le, h.whole.imp (fun hw => ?_) fun ⟨hm, hmod, hfree⟩ => ?_⟩
    · change s.mapped + (pagesBetween 0 new - s.pages) = pagesBetween 0 new
      omega
    · have heq : pagesBetween 0 new = s.pages := by
        have hlt := usedBy_strictMono.le_iff_le.mp (show usedBy (pagesBetween 0 new) ≤ usedBy s.pages by
          rw [need] at hneed
          omega)
        omega
      change s.mapped + (pagesBetween 0 new - s.pages) + 1 = pagesBetween 0 new ∧
        (s.mapped + (pagesBetween 0 new - s.pages)) % nptentries = 0 ∧ s.free - s.need new = 0
      rw [heq, Nat.sub_self, add_zero]
      exact ⟨hm, hmod, by omega⟩
  · split at hg
    · rename_i hlast
      cases hg
      refine ⟨(not_le.mp hnew).le, .inr ⟨?_, hlast.2, rfl⟩⟩
      have hpos : 0 < pagesBetween 0 new := Mem.mul_pgsize_lt_iff.mp (by omega)
      exact Nat.sub_add_cancel hpos
    · cases hg

end Room

namespace Mem

variable {L : Layout} {M₀ M M' M'' : Mem} {d e k m n u v f g i new : ℕ} {s : Room} {perm : ℕ → ℕ}
  {lost lost' : Multiset ℕ}

/-! ## The new directory -/

/-- All that `d` holds and all that is free was free in `M₀`, but for `lost`, which was free and
is held by nobody. -/
structure Owned (L : Layout) (d : ℕ) (M₀ M : Mem) (lost : Multiset ℕ) : Prop where
  sound : Sound L M d
  total : (M.free : Multiset ℕ) + M.held d + lost = M₀.free
  page : ∀ g ∉ M₀.free, M.page g = M₀.page g

/-- The permissions of the pages that `allocuvm` maps. -/
def userPerm (_ : ℕ) : ℕ := pteW ||| pteU

/-- The first `m` pages are mapped for the user, and no others. -/
structure Spread (L : Layout) (d : ℕ) (perm : ℕ → ℕ) (M : Mem) (m : ℕ) : Prop where
  le : m ≤ userPages
  mapped : ∀ v < m, ∃ f, M.pte d v = entry f (perm v)
  absent : ∀ v < userPages, m ≤ v → present (M.pte d v) = false
  kernel : ∀ v < 2 ^ 20, userPages ≤ v → M.pte d v = kernelPte L v
  tables : ∀ j, (M.table d j).isSome ↔ Room.TableAt m j

/-- The memory is as `s` says. -/
structure Loading (L : Layout) (d : ℕ) (M₀ : Mem) (perm : ℕ → ℕ) (M : Mem) (s : Room)
    (lost : Multiset ℕ) : Prop extends Owned L d M₀ M lost, Spread L d perm M s.mapped where
  sane : s.Sane
  free : M.free.length = s.free

theorem Owned.mem_free (h : Owned L d M₀ M lost) (hf : f ∈ (M.free : Multiset ℕ) + M.held d) :
    f ∈ M₀.free :=
  mem_coe.mp (h.total ▸ mem_add.mpr (.inl hf))

theorem Owned.notMem (h : Owned L d M₀ M lost) (hg : g ∉ M₀.free) : g ∉ M.free ∧ g ∉ M.nodes d :=
  ⟨fun hf => hg (h.mem_free (mem_add.mpr (.inl (mem_coe.mpr hf)))), fun hn =>
    hg (h.mem_free (mem_add.mpr (.inr (mem_add.mpr (.inl hn)))))⟩

theorem user_kernelPte : user (kernelPte L v) = false := by
  rw [kernelPte]
  split
  · rfl
  · rename_i k hk
    have hmem := mem_of_find?_eq_some hk
    have hperm : k.perm = pteW ∨ k.perm = 0 := by
      simp only [kmap, mem_cons, not_mem_nil, or_false] at hmem
      rcases hmem with rfl | rfl | rfl | rfl <;> simp
    rw [Kmap.entry, user_entry]
    rcases hperm with hperm | hperm <;> rw [hperm] <;> decide

theorem not_kernelTable (hv : v < userPages) : ¬ KernelTable (v / nptentries) := by
  simp only [KernelTable, userPages, kernbase, phystop, devspace, pgsize, nptentries] at *
  omega

theorem card_tableAt (hm : m ≤ userPages) :
    {j ∈ Finset.range nptentries | Room.TableAt m j}.card = (m + (nptentries - 1)) / nptentries + 64 := by
  have hdis : Disjoint {j ∈ Finset.range nptentries | j * nptentries < m}
      {j ∈ Finset.range nptentries | KernelTable j} := by
    refine Finset.disjoint_filter.mpr fun j _ hj hk => ?_
    refine not_kernelTable (v := j * nptentries) (hj.trans_le hm) ?_
    rwa [Nat.mul_div_cancel j (by decide)]
  have husers : {j ∈ Finset.range nptentries | j * nptentries < m} =
      Finset.range ((m + (nptentries - 1)) / nptentries) := by
    ext j
    rw [Finset.mem_filter, Finset.mem_range, Finset.mem_range]
    simp only [userPages, kernbase, pgsize, nptentries] at *
    omega
  rw [← card_kernelTable, ← Finset.card_range ((m + (nptentries - 1)) / nptentries), ← husers,
    ← Finset.card_union_of_disjoint hdis, ← Finset.filter_or]
  rfl

section Spread

variable (h : Spread L d perm M m)

include h

theorem Spread.present (hv : v < m) : present (M.pte d v) = true := by
  obtain ⟨f, hf⟩ := h.mapped v hv
  rw [hf]
  exact present_entry

theorem Spread.present_iff (hv : v < userPages) : Vm.present (M.pte d v) = true ↔ v < m := by
  constructor
  · intro hp
    by_contra hge
    rw [h.absent v hv (not_lt.mp hge)] at hp
    cases hp
  · exact fun hv => h.present hv

theorem Spread.mem_pages (hv : v < m) : pageOf (M.pte d v) ∈ M.pages d :=
  Mem.mem_pages.mpr ⟨v, hv.trans_le h.le, h.present hv, rfl⟩

theorem Spread.user (hv : v < m) : user (M.pte d v) = (perm v).testBit 2 := by
  obtain ⟨f, hf⟩ := h.mapped v hv
  rw [hf, user_entry]

theorem Spread.not_user (hv : v < 2 ^ 20) (hm : m ≤ v) :
    ¬ (Vm.present (M.pte d v) = true ∧ Vm.user (M.pte d v) = true) := by
  rintro ⟨hp, hu⟩
  rcases Nat.lt_or_ge v userPages with hvu | hvu
  · rw [h.absent v hvu hm] at hp
    cases hp
  · rw [h.kernel v hv hvu, user_kernelPte] at hu
    cases hu

theorem Spread.card_held : (M.held d).card = 65 + usedBy m := by
  have hpages : {v ∈ Finset.range userPages | Vm.present (M.pte d v) = true} = Finset.range m := by
    ext v
    rw [Finset.mem_filter, Finset.mem_range, Finset.mem_range]
    constructor
    · rintro ⟨hv, hp⟩
      exact (h.present_iff hv).mp hp
    · exact fun hv => ⟨hv.trans_le h.le, h.present hv⟩
  rw [held, card_add, card_nodes, card_pages, hpages, Finset.card_range,
    Finset.filter_congr fun j _ => h.tables j, card_tableAt h.le, usedBy]
  omega

theorem Spread.congr (hpte : ∀ v < 2 ^ 20, M'.pte d v = M.pte d v)
    (htable : ∀ j, M'.table d j = M.table d j) : Spread L d perm M' m where
  le := h.le
  mapped v hv := by
    rw [hpte v (userPages_lt (hv.trans_le h.le))]
    exact h.mapped v hv
  absent v hv hm := by
    rw [hpte v (userPages_lt hv)]
    exact h.absent v hv hm
  kernel v hv hu := by
    rw [hpte v hv]
    exact h.kernel v hv hu
  tables j := by
    rw [htable]
    exact h.tables j

theorem Spread.filled {b : ℕ → Bytes pgsize} (he : m + k ≤ userPages)
    (hfill : Filled d (fun u => m ≤ u ∧ u < m + k) b perm M M') : Spread L d perm M' (m + k) where
  le := he
  mapped v hv := by
    rcases Nat.lt_or_ge v m with hvm | hvm
    · rw [hfill.pte v (userPages_lt (hvm.trans_le h.le)) (by omega)]
      exact h.mapped v hvm
    · obtain ⟨f, -, hpte, -⟩ := hfill.filled v ⟨hvm, hv⟩
      exact ⟨f, hpte⟩
  absent v hv hm := by
    rw [hfill.pte v (userPages_lt hv) (by omega)]
    exact h.absent v hv (by omega)
  kernel v hv hu := by
    rw [hfill.pte v hv (by omega)]
    exact h.kernel v hv hu
  tables j := by
    by_cases hj : ∃ u, (m ≤ u ∧ u < m + k) ∧ u / nptentries = j
    · obtain ⟨u, hu, rfl⟩ := hj
      refine iff_of_true (hfill.has u hu) (.inl ?_)
      simp only [nptentries]
      omega
    · rw [hfill.others j fun u hu he => hj ⟨u, hu, he⟩, h.tables j]
      refine or_congr_left' fun hk => ⟨fun hlt => by omega, fun hlt => ?_⟩
      by_contra hge
      exact hj ⟨j * nptentries, ⟨not_lt.mp hge, hlt⟩, Nat.mul_div_cancel j (by decide)⟩

end Spread

theorem Loading.mem_free (h : Loading L d M₀ perm M s lost) (hv : v < s.mapped) :
    pageOf (M.pte d v) ∈ M₀.free :=
  h.toOwned.mem_free (mem_add.mpr (.inr (mem_add.mpr (.inr (h.mem_pages hv)))))

theorem NewDir.loading (h : NewDir L d M₀ M) (hn : M₀.free.Nodup)
    (hal : ∀ f ∈ M₀.free, L.Allocatable f) : Loading L d M₀ userPerm M ⟨0, 0, M.free.length⟩ 0 where
  sound := h.sound hn hal
  total := by rw [add_zero, held, h.pages, add_zero, h.total]
  page := h.page
  sane := ⟨Nat.zero_le _, .inl (show 0 = pagesBetween 0 0 from rfl)⟩
  free := rfl
  le := Nat.zero_le _
  mapped _ hv := absurd hv (Nat.not_lt_zero _)
  absent v hv _ := by
    rw [h.pte v (userPages_lt hv), kernelPte_user L hv]
    rfl
  kernel v hv _ := h.pte v hv
  tables j := by
    rw [h.table j, Room.TableAt, or_iff_right (Nat.not_lt_zero _)]

theorem Sound.setupkvm_loading (hs : Sound L M d') (hF : 65 ≤ M.free.length) :
    ∃ d M₁, setupkvm L M = .ok (some d, M₁) ∧
      Loading L d M userPerm M₁ ⟨0, 0, M.free.length - 65⟩ 0 := by
  have hal : ∀ f ∈ M.free, L.Allocatable f := fun f hf => hs.takes_free hf
  obtain ⟨d, M₁, hrun, hnew, hfree⟩ := setupkvm_ok hs.free_nodup hal hF
  rw [← hfree, Nat.add_sub_cancel]
  exact ⟨d, M₁, hrun, hnew.loading hs.free_nodup hal⟩

/-! ## `allocuvm` -/

theorem Owned.undone (h : Owned L d M₀ M lost) (hun : Undone d lost' M M') :
    Owned L d M₀ M' (lost + lost') where
  sound := by
    have hle : (M'.free : Multiset ℕ) + M'.held d ≤ M.free + M.held d := by
      rw [← hun.total]
      exact Multiset.le_add_right _ _
    exact ⟨nodup_of_le hle h.sound.nodup, fun f hf =>
      h.sound.takes f (Multiset.mem_of_le hle hf)⟩
  total := by
    rw [← h.total, ← hun.total]
    abel
  page g hg := by
    obtain ⟨hgf, hgn⟩ := h.notMem hg
    rw [hun.page g hgf hgn, h.page g hg]

theorem Owned.filled (h : Owned L d M₀ M lost) {P : ℕ → Prop} {b : ℕ → Bytes pgsize}
    (hfill : Filled d P b perm M M') : Owned L d M₀ M' lost where
  sound := hfill.sound h.sound
  total := by rw [hfill.total, h.total]
  page g hg := by
    obtain ⟨hgf, hgn⟩ := h.notMem hg
    rw [hfill.page g hgf hgn, h.page g hg]

theorem Owned.dropped (h : Owned L d M₀ M lost) (hd : Dropped d lost' M M') :
    Owned L d M₀ M' (lost + lost') where
  sound := by
    have hle : (M'.free : Multiset ℕ) + M'.held d ≤ M.free + M.held d := by
      rw [← hd.free, hd.held_eq, add_right_comm]
      exact Multiset.le_add_right _ _
    exact ⟨nodup_of_le hle h.sound.nodup, fun f hf =>
      h.sound.takes f (Multiset.mem_of_le hle hf)⟩
  total := by
    rw [← h.total, ← hd.free, hd.held_eq]
    abel
  page g hg := by rw [hd.page g (h.notMem hg).1, h.page g hg]

theorem Spread.tablesBelow (h : Spread L d perm M m) (hn : m + n ≤ userPages) :
    TablesBelow (M.has d) m n := by
  intro u hu hu'
  rw [Mem.has, h.tables, Room.TableAt, or_iff_left (not_kernelTable (by omega))]

/-- What `allocuvm` makes of the memory, and what it returns, by what becomes of the room. -/
inductive Grown (L : Layout) (d : ℕ) (M₀ M' : Mem) (lost : Multiset ℕ) : ℕ → Option Room → Prop
  | failed (h : Owned L d M₀ M' lost) : Grown L d M₀ M' lost 0 none
  | grown {t : Room} (hpos : 0 < t.sz) (h : Loading L d M₀ userPerm M' t lost) :
      Grown L d M₀ M' lost t.sz (some t)

section Alloc

variable (h : Loading L d M₀ userPerm M s lost)

include h

theorem length_allocRequests (hw : s.mapped = s.pages) (hle : s.sz ≤ new) (hnew : new < kernbase) :
    (M.allocRequests d s.sz new).length = s.need new := by
  have hmono : s.pages ≤ pagesBetween 0 new := pagesBetween_mono hle
  have hpages := pagesBetween_le hnew.le
  have hlen := length_requests (h.tablesBelow (n := pagesBetween 0 new - s.pages) (by omega))
  rw [hw, Nat.add_sub_cancel' hmono] at hlen
  change (requests (M.has d) (pagesBetween 0 new - s.pages) s.pages).length = s.need new
  rw [Room.need]
  omega

theorem leaks_iff (hw : s.mapped = s.pages) (hle : s.sz ≤ new) (hnew : new < kernbase) :
    s.Leaks new ↔ (M.allocRequests d s.sz new)[M.free.length]? = some .table := by
  have hmono : s.pages ≤ pagesBetween 0 new := pagesBetween_mono hle
  have hpages := pagesBetween_le hnew.le
  have htab := h.tablesBelow (n := pagesBetween 0 new - s.pages) (by omega)
  rw [hw] at htab
  have hreq := getElem?_requests (k := M.free.length) htab
  rw [Nat.add_sub_cancel' hmono, h.free] at hreq
  rw [Room.Leaks, and_iff_right hle, and_iff_right hnew, h.free]
  exact hreq.symm

omit h in
theorem card_of_no_leak (hno : ¬ s.Leaks new) :
    lost.card = lost.card + if s.Leaks new then 1 else 0 := by
  rw [if_neg hno, add_zero]

theorem allocuvm_enough (hw : s.mapped = s.pages) (hle : s.sz ≤ new) (hnew : new < kernbase)
    (hneed : s.need new ≤ s.free) :
    ∃ M', allocuvm L M d s.sz new = .ok (new, M') ∧
      Filled d (fun u => s.pages ≤ u ∧ u < pagesBetween 0 new) (fun _ => Bytes.zero) userPerm M M' ∧
      Loading L d M₀ userPerm M' ⟨new, pagesBetween 0 new, s.free - s.need new⟩ lost := by
  have hmono : s.pages ≤ pagesBetween 0 new := pagesBetween_mono hle
  have hpages := pagesBetween_le hnew.le
  have hreq : (M.allocRequests d s.sz new).drop M.free.length = [] := by
    rw [drop_eq_nil_iff, length_allocRequests h hw hle hnew, h.free]
    exact hneed
  obtain ⟨M', hrun, hM'⟩ := allocuvm_filled hle hnew h.sound
    (fun v hv hv' => h.absent v (hv'.trans_le hpages) (hw ▸ hv)) hreq
  have hspread : Spread L d userPerm M' (pagesBetween 0 new) := by
    obtain ⟨k, hk⟩ := Nat.exists_eq_add_of_le hmono
    rw [hk] at hpages ⊢
    have hs := h.toSpread.filled (b := fun _ => Bytes.zero) (k := k) (by omega)
      (hM'.congr fun u => by rw [hw]; change s.pages ≤ u ∧ _ ↔ _; omega)
    rwa [hw] at hs
  refine ⟨M', hrun, hM', ⟨h.filled hM', hspread, ⟨hnew.le, .inl rfl⟩, ?_⟩⟩
  have hcard := congrArg Multiset.card hM'.total
  rw [card_add, card_add, coe_card, coe_card, hspread.card_held,
    h.card_held, h.free, hw] at hcard
  have := usedBy_mono hmono
  rw [Room.need] at hneed ⊢
  change M'.free.length = s.free - _
  omega

theorem allocuvm_short (hw : s.mapped = s.pages) (hle : s.sz ≤ new) (hnew : new < kernbase)
    (hneed : s.free < s.need new) :
    ∃ r M' lost', allocuvm L M d s.sz new = .ok (r, M') ∧
      lost'.card = lost.card + (if s.Leaks new then 1 else 0) ∧
      Grown L d M₀ M' lost' r
        (if s.need new = s.free + 1 ∧ (pagesBetween 0 new - 1) % nptentries = 0 then
          some ⟨new, pagesBetween 0 new - 1, 0⟩ else none) := by
  have hmono : s.pages ≤ pagesBetween 0 new := pagesBetween_mono hle
  have hpages := pagesBetween_le hnew.le
  have habs : ∀ v, pagesBetween 0 s.sz ≤ v → v < pagesBetween 0 new → present (M.pte d v) = false :=
    fun v hv hv' => h.absent v (hv'.trans_le hpages) (hw ▸ hv)
  have hlen := length_allocRequests h hw hle hnew
  have hleak := leaks_iff h hw hle hnew
  rcases hreq : (M.allocRequests d s.sz new).drop M.free.length with _ | ⟨r, rest⟩
  · rw [drop_eq_nil_iff, hlen, h.free] at hreq
    omega
  have hrest : s.need new = s.free + 1 + rest.length := by
    have := congrArg List.length hreq
    rw [length_drop, hlen, h.free, length_cons] at this
    omega
  have hhead : (M.allocRequests d s.sz new)[M.free.length]? = some r := by
    rw [← head?_drop, hreq]
    rfl
  -- the last request is for a page table if and only if the last page is the first of its table
  have hlast : rest = [] → (s.Leaks new ↔ (pagesBetween 0 new - 1) % nptentries = 0) := by
    rintro rfl
    rw [length_nil, Room.need] at hrest
    rw [Room.Leaks, and_iff_right hle, and_iff_right hnew]
    constructor
    · rintro ⟨v, hv, hv', hmod, heq⟩
      have hsucc := usedBy_succ v
      rw [if_pos hmod] at hsucc
      have hv : v + 1 = pagesBetween 0 new := usedBy_strictMono.injective (by omega)
      rwa [← hv, Nat.add_sub_cancel]
    · intro hmod
      obtain ⟨v, hv⟩ : ∃ v, pagesBetween 0 new = v + 1 :=
        Nat.exists_eq_add_one.mpr (Nat.pos_of_ne_zero fun h0 => by
          rw [h0] at hrest
          have := usedBy_mono (Nat.zero_le s.pages)
          omega)
      have hsucc := usedBy_succ v
      rw [hv, Nat.add_sub_cancel] at hmod
      rw [if_pos hmod, ← hv] at hsucc
      refine ⟨v, by omega, ?_, hmod, by omega⟩
      by_contra hlt
      obtain heq : s.pages = pagesBetween 0 new := by omega
      rw [heq] at hrest
      omega
  rcases r with _ | _
  · have hno : ¬ s.Leaks new := by
      rw [hleak, hhead]
      simp
    obtain ⟨M', hrun, hun⟩ := allocuvm_noPage hle hnew h.sound habs hreq
    refine ⟨0, M', lost, hrun, card_of_no_leak hno, ?_⟩
    rw [if_neg]
    · exact .failed (add_zero lost ▸ h.undone hun)
    · rintro ⟨hone, hmod⟩
      exact hno ((hlast (eq_nil_of_length_eq_zero (by omega))).mpr hmod)
  · have hyes : s.Leaks new := hleak.mpr hhead
    rw [if_pos hyes]
    by_cases hnil : rest = []
    · obtain ⟨k, M', f, hk, hM', hf, hrun, hiff⟩ := allocuvm_noTable hle hnew h.sound habs hreq
      have hend : s.pages + k + 1 = pagesBetween 0 new := hiff.mp hnil
      have hmod := (hlast hnil).mp hyes
      have hone : s.need new = s.free + 1 := by
        rw [hrest, hnil]
        rfl
      have hs' := hM'.sound h.sound
      have hdrop := dropped_taken hs' hf Bytes.zero
      have hspread : Spread L d userPerm (M'.taken f [] Bytes.zero) (pagesBetween 0 new - 1) := by
        have hs := h.toSpread.filled (b := fun _ => Bytes.zero) (k := k) (by omega)
          (hM'.congr fun u => by rw [hw]; rfl)
        rw [← hend, Nat.add_sub_cancel, ← hw]
        exact hs.congr hdrop.pte hdrop.table
      refine ⟨new, M'.taken f [] Bytes.zero, lost + {f}, ?_, by rw [card_add]; rfl, ?_⟩
      · rw [hrun, show pagesBetween 0 new - pagesBetween 0 s.sz - k - 1 = 0 by
          change pagesBetween 0 new - s.pages - k - 1 = 0
          omega]
        rfl
      · rw [if_pos ⟨hone, hmod⟩]
        refine .grown (t := ⟨new, pagesBetween 0 new - 1, 0⟩) ?_ ⟨(h.filled hM').dropped hdrop, hspread,
          ⟨hnew.le, .inr ⟨?_, hmod, rfl⟩⟩, rfl⟩
        · change 0 < new
          by_contra h0
          obtain rfl : new = 0 := by omega
          rw [show pagesBetween 0 0 = 0 from rfl] at hend
          omega
        · change pagesBetween 0 new - 1 + 1 = pagesBetween 0 new
          omega
    · obtain ⟨-, f, M', hrun, hun⟩ := allocuvm_lost hle hnew h.sound habs hnil hreq
      refine ⟨0, M', lost + {f}, hrun, by rw [card_add]; rfl, ?_⟩
      rw [if_neg]
      · exact .failed (h.undone hun)
      · rintro ⟨hone, -⟩
        exact hnil (eq_nil_of_length_eq_zero (by omega))

theorem allocuvm_broken (hm : s.mapped + 1 = s.pages) (hfree : s.free = 0) (hle : s.sz ≤ new)
    (hnew : new < kernbase) :
    ∃ r M', allocuvm L M d s.sz new = .ok (r, M') ∧
      ((s.pages < pagesBetween 0 new ∧ r = 0 ∧ Owned L d M₀ M' lost) ∨
        (pagesBetween 0 new = s.pages ∧ r = new ∧ M' = M)) := by
  have hmono : s.pages ≤ pagesBetween 0 new := pagesBetween_mono hle
  have hpages := pagesBetween_le hnew.le
  have hnil : M.free = [] := eq_nil_of_length_eq_zero (h.free.trans hfree)
  rcases eq_or_lt_of_le hmono with heq | hlt
  · refine ⟨new, M, ?_, .inr ⟨heq.symm, rfl, rfl⟩⟩
    rw [allocuvm, if_neg (not_le.mpr hnew), if_neg (not_lt.mpr hle),
      pagesBetween_pgroundup hle hnew.le, ← heq, Room.pages, Nat.sub_self]
    rfl
  · obtain ⟨j, hj⟩ := Nat.exists_eq_add_of_lt (Nat.sub_pos_of_lt hlt)
    rw [zero_add] at hj
    have hreq : (M.allocRequests d s.sz new).drop M.free.length =
        requests (M.has d) (j + 1) s.pages := by
      rw [hnil, ← hj]
      rfl
    obtain ⟨M', hrun, hun⟩ := allocuvm_noPage hle hnew h.sound
      (fun v hv hv' => h.absent v (hv'.trans_le hpages) (by change s.pages ≤ v at hv; omega))
      (by rw [hreq, requests])
    exact ⟨0, M', hrun, .inl ⟨hlt, rfl, add_zero lost ▸ h.undone hun⟩⟩

/-- **`allocuvm` does to the memory what `grow` does to the room.** -/
theorem allocuvm_room (new : ℕ) :
    ∃ r M' lost', allocuvm L M d s.sz new = .ok (r, M') ∧
      lost'.card = lost.card + (if s.Leaks new then 1 else 0) ∧
      Grown L d M₀ M' lost' r (s.grow new) := by
  rcases Nat.lt_or_ge new kernbase with hnew | hnew
  swap
  · refine ⟨0, M, lost, by rw [allocuvm, if_pos hnew],
      card_of_no_leak fun hl => absurd hl.2.1 (not_lt.mpr hnew), ?_⟩
    rw [Room.grow, if_pos hnew]
    exact .failed h.toOwned
  rcases Nat.lt_or_ge new s.sz with hlt | hle
  · refine ⟨s.sz, M, lost, by rw [allocuvm, if_neg (not_le.mpr hnew), if_pos hlt],
      card_of_no_leak fun hl => absurd hl.1 (not_le.mpr hlt), ?_⟩
    rw [Room.grow, if_neg (not_le.mpr hnew), if_pos hlt]
    exact .grown (by omega) h
  have hmono : s.pages ≤ pagesBetween 0 new := pagesBetween_mono hle
  have hused := usedBy_mono hmono
  have hgrow : s.grow new = if new = 0 then none else if s.need new ≤ s.free then
      some ⟨new, s.mapped + (pagesBetween 0 new - s.pages), s.free - s.need new⟩
    else if s.need new = s.free + 1 ∧ (pagesBetween 0 new - 1) % nptentries = 0 then
      some ⟨new, pagesBetween 0 new - 1, 0⟩ else none := by
    rw [Room.grow, if_neg (not_le.mpr hnew), if_neg (not_lt.mpr hle)]
  rw [hgrow]
  rcases h.sane.whole with hw | ⟨hm, hmod, hfree⟩
  · rcases Nat.lt_or_ge s.free (s.need new) with hneed | hneed
    · obtain ⟨r, M', lost', hrun, hcard, hM'⟩ := allocuvm_short h hw hle hnew hneed
      refine ⟨r, M', lost', hrun, hcard, ?_⟩
      have hne : new ≠ 0 := by
        rintro rfl
        rw [Room.need, show pagesBetween 0 0 = 0 from rfl] at hneed
        have := usedBy_mono (Nat.zero_le s.pages)
        omega
      rwa [if_neg hne, if_neg (not_le.mpr hneed)]
    · obtain ⟨M', hrun, -, hM'⟩ := allocuvm_enough h hw hle hnew hneed
      refine ⟨new, M', lost, hrun, card_of_no_leak ?_, ?_⟩
      · rintro ⟨-, -, v, hv, -, hmod, heq⟩
        have hsucc := usedBy_succ v
        rw [if_pos hmod] at hsucc
        have := usedBy_mono (Nat.succ_le_of_lt hv)
        rw [Room.need] at hneed
        change usedBy (v + 1) ≤ _ at this
        omega
      · by_cases h0 : new = 0
        · subst h0
          rw [if_pos rfl]
          exact .failed hM'.toOwned
        · rw [if_neg h0, if_pos hneed, hw, Nat.add_sub_cancel' hmono]
          exact .grown (t := ⟨new, _, _⟩) (Nat.pos_of_ne_zero h0) hM'
  · obtain ⟨r, M', hrun, hcases⟩ := allocuvm_broken h hm hfree hle hnew
    have hne : new ≠ 0 := by
      rintro rfl
      rw [show pagesBetween 0 0 = 0 from rfl] at hmono
      omega
    refine ⟨r, M', lost, hrun, card_of_no_leak ?_, ?_⟩
    · rintro ⟨-, -, v, -, hv, -, heq⟩
      have := usedBy_mono hv
      omega
    rw [if_neg hne]
    rcases hcases with ⟨hlt, rfl, hM'⟩ | ⟨heq, rfl, rfl⟩
    · have hlt' := usedBy_strictMono hlt
      have hneed : ¬ s.need new ≤ s.free := by
        rw [Room.need]
        omega
      rw [if_neg hneed, if_neg]
      · exact .failed hM'
      · rintro ⟨hone, hmod'⟩
        rw [Room.need, hfree] at hone
        simp only [usedBy, nptentries] at *
        omega
    · have h0 : s.need r = 0 := by
        rw [Room.need, heq, Nat.sub_self]
      rw [if_pos (by omega), h0, heq, Nat.sub_self, add_zero, Nat.sub_zero]
      refine .grown (t := ⟨r, s.mapped, s.free⟩) (Nat.pos_of_ne_zero hne)
        ⟨h.toOwned, h.toSpread, ⟨hnew.le, .inr ⟨?_, hmod, hfree⟩⟩, h.free⟩
      exact hm.trans heq.symm

end Alloc

/-! ## `loaduvm` -/

section SetPage

variable {b : Bytes pgsize} (hs : Sound L M d) (hf : f ∈ M.pages d)

include hs hf

theorem page_setPage_of_mem_nodes (hg : g ∈ M.nodes d) : (M.setPage f b).page g = M.page g := by
  refine page_setPage_of_ne ?_
  rintro rfl
  exact (hs.notMem_of_mapped hf).2 hg

theorem table_setPage (j : ℕ) : (M.setPage f b).table d j = M.table d j :=
  table_congr (page_setPage_of_mem_nodes hs hf root_mem) j

theorem pte_setPage (hv : v < 2 ^ 20) : (M.setPage f b).pte d v = M.pte d v :=
  pte_congr (fun _ hg => page_setPage_of_mem_nodes hs hf hg) hv

theorem held_setPage : (M.setPage f b).held d = M.held d := by
  rw [held, held, nodes_congr fun j _ => table_setPage hs hf j,
    pages_congr fun u hu => pte_setPage hs hf (userPages_lt hu)]

end SetPage

theorem Loading.setPage (h : Loading L d M₀ perm M s lost) (hv : v < s.mapped) (b : Bytes pgsize) :
    Loading L d M₀ perm (M.setPage (pageOf (M.pte d v)) b) s lost := by
  have hf := h.mem_pages hv
  have hheld := held_setPage (b := b) h.sound hf
  refine ⟨⟨?_, ?_, ?_⟩, ?_, h.sane, h.free⟩
  · exact h.sound.of_eq (by rw [hheld]; rfl)
  · rw [hheld]
    exact h.total
  · intro g hg
    rw [page_setPage_of_ne, h.page g hg]
    rintro rfl
    exact hg (h.mem_free hv)
  · exact h.congr (fun u hu => pte_setPage h.sound hf hu) fun j => table_setPage h.sound hf j

/-- The byte at an address of the user. -/
def userByte (M : Mem) (d a : ℕ) : UInt8 := (M.page (pageOf (M.pte d (a / pgsize)))).byte (a % pgsize)

theorem Loading.userByte_write (h : Loading L d M₀ perm M s lost) (hv : v < s.mapped) {a : ℕ}
    (off : ℕ) (ha : a / pgsize < s.mapped) (bs : List UInt8) :
    (M.write (pageOf (M.pte d v)) off bs).userByte d a =
      if a / pgsize = v ∧ off ≤ a % pgsize ∧ a % pgsize < off + bs.length then
        bs[a % pgsize - off]?.getD 0
      else M.userByte d a := by
  have hf := h.mem_pages hv
  have hle := h.le
  rw [userByte, userByte, write, pte_setPage h.sound hf (userPages_lt (ha.trans_le hle))]
  by_cases hav : a / pgsize = v
  · subst hav
    rw [page_setPage_same]
    split
    · rename_i hin
      exact Bytes.byte_copy_of_mem (Nat.mod_lt _ (by decide)) hin.2.1 hin.2.2
    · rename_i hout
      exact Bytes.byte_copy_of_notMem (by omega)
  · rw [if_neg fun hin => hav hin.1, page_setPage_of_ne]
    intro he
    have hn := (Multiset.nodup_add.mp h.sound.held_nodup).2.1
    exact hav (pageOf_inj hn (ha.trans_le hle) (hv.trans_le hle) (h.present ha)
      (h.present hv) he)

/-- The store goes to a page that `allocuvm` has mapped for the new image, below its size. -/
def Confined (M₀ : Mem) (sz : ℕ) (st : Store) : Prop :=
  st.bytes ≠ [] → st.va < sz ∧ present st.pte = true ∧ user st.pte = true ∧ pageOf st.pte ∈ M₀.free

section LoadFrom

variable {rd : Reader} {addr off filesz : ℕ}

theorem walk_addr {va : ℕ} (hva : va < 2 ^ 32) (hal : va % pgsize = 0) :
    M.walk d va = (M.table d (va / pgsize / nptentries)).map fun t => (t, va / pgsize % nptentries) := by
  have hlt : va / pgsize < 2 ^ 20 := by
    simp only [pgsize]
    omega
  have heq : va / pgsize * pgsize = va := by
    simp only [pgsize] at hal ⊢
    omega
  rw [← walk_eq hlt, heq]

theorem write_nil : M.write f 0 [] = M := by
  have hcopy : (M.page f).copy 0 [] = M.page f := by
    funext j
    rw [Bytes.copy, if_neg]
    rintro ⟨-, h⟩
    exact Nat.not_lt_zero _ h
  rw [write, hcopy, setPage, Function.update_eq_self]

theorem chunk_pos (h : i < filesz) : 0 < chunk filesz i := by
  rw [chunk]
  split
  · omega
  · decide

theorem offsets_succ (h : ∀ j < n + 1, i + j * pgsize < filesz) :
    i < filesz ∧ ∀ j < n, i + pgsize + j * pgsize < filesz := by
  refine ⟨by simpa using h 0 (Nat.succ_pos n), fun j hj => ?_⟩
  have := h (j + 1) (by omega)
  rw [add_mul, one_mul] at this
  omega

variable (haddr : addr % pgsize = 0)

include haddr

theorem page_aligned (hi : i % pgsize = 0) : (addr + i) % 2 ^ 32 % pgsize = 0 := by
  simp only [pgsize] at *
  omega

theorem loadFrom_read (hi : i % pgsize = 0) {bs : List UInt8} {v t : ℕ}
    (hv : v = (addr + i) % 2 ^ 32 / pgsize) (ht : M.table d (v / nptentries) = some t)
    (hread : rd.read k ((off + i) % 2 ^ 32) (chunk filesz i) = some bs) :
    loadFrom rd d addr off filesz (n + 1) i k M =
      if bs.length = chunk filesz i then do
        let (done, k, stores, M') ← loadFrom rd d addr off filesz n (i + pgsize) (k + 1)
          (M.write (pageOf (M.pte d v)) 0 bs)
        pure (done, k, ⟨(addr + i) % 2 ^ 32, M.pte d v, bs⟩ :: stores, M')
      else .ok (false, k + 1, [⟨(addr + i) % 2 ^ 32, M.pte d v, bs⟩],
        M.write (pageOf (M.pte d v)) 0 bs) := by
  subst hv
  have hread' : rd.read k ((off + i) % 2 ^ 32) (if filesz - i < pgsize then filesz - i else pgsize) =
    some bs := hread
  rw [loadFrom, walk_addr (Nat.mod_lt _ (by decide)) (page_aligned haddr hi), ht]
  simp only [Option.map_some, hread', ← pte_of_table ht]
  rfl

theorem loadFrom_unread (hi : i % pgsize = 0) {t : ℕ}
    (ht : M.table d ((addr + i) % 2 ^ 32 / pgsize / nptentries) = some t)
    (hread : rd.read k ((off + i) % 2 ^ 32) (chunk filesz i) = none) :
    loadFrom rd d addr off filesz (n + 1) i k M = .ok (false, k + 1, [], M) := by
  have hread' : rd.read k ((off + i) % 2 ^ 32) (if filesz - i < pgsize then filesz - i else pgsize) =
    none := hread
  rw [loadFrom, walk_addr (Nat.mod_lt _ (by decide)) (page_aligned haddr hi), ht]
  simp only [Option.map_some, hread']

theorem loadFrom_noTable (hi : i % pgsize = 0)
    (ht : M.table d ((addr + i) % 2 ^ 32 / pgsize / nptentries) = none) :
    loadFrom rd d addr off filesz (n + 1) i k M = .error .loaduvmExist := by
  rw [loadFrom, walk_addr (Nat.mod_lt _ (by decide)) (page_aligned haddr hi), ht]
  rfl

theorem next_offset (hm : m ≤ userPages) (hlt : addr < 2 ^ 32) (hi : i % pgsize = 0)
    (hin : i = 0 ∨ addr + i ≤ m * pgsize) (hpage : (addr + i) % 2 ^ 32 / pgsize < m) :
    addr + (i + pgsize) ≤ m * pgsize := by
  simp only [userPages, kernbase, pgsize] at *
  omega

theorem confined_of_mapped (h : Loading L d M₀ userPerm M s lost) (hi : i % pgsize = 0)
    (hv : (addr + i) % 2 ^ 32 / pgsize < s.mapped) (bs : List UInt8) :
    Confined M₀ s.sz ⟨(addr + i) % 2 ^ 32, M.pte d ((addr + i) % 2 ^ 32 / pgsize), bs⟩ := by
  intro _
  refine ⟨?_, h.present hv, ?_, h.mem_free hv⟩
  · have hva := page_aligned haddr hi
    have hvs := mul_pgsize_lt_iff.mpr (hv.trans_le h.sane.mapped_le)
    change (addr + i) % 2 ^ 32 < s.sz
    simp only [pgsize] at hva hvs
    omega
  · have hu := h.user hv
    rw [userPerm] at hu
    exact hu.trans (by decide)

/-- **`loaduvm` stores only to pages of the new image if the segment fits.** -/
theorem loadFrom_ok (h : Loading L d M₀ userPerm M s lost) (hlt : addr < 2 ^ 32)
    (hi : i % pgsize = 0) (hin : i = 0 ∨ addr + i ≤ s.mapped * pgsize)
    (hn : ∀ j < n, i + j * pgsize < filesz) (hfit : SegFits rd s.mapped addr off filesz n i k) :
    ∃ stores M', loadFrom rd d addr off filesz n i k M =
        .ok ((segRead rd off filesz n i k).1, (segRead rd off filesz n i k).2, stores, M') ∧
      (∀ st ∈ stores, Confined M₀ s.sz st) ∧ Loading L d M₀ userPerm M' s lost := by
  induction n generalizing i k M with
  | zero =>
    have hend : i < 2 ^ 32 := by
      have := h.le
      simp only [userPages, kernbase, pgsize] at *
      omega
    exact ⟨[], M, if_pos hend, forall_mem_nil _, h⟩
  | succ n ih =>
    obtain ⟨hpos, hn'⟩ := offsets_succ hn
    rw [SegFits] at hfit
    rw [segRead]
    rcases hread : rd.read k ((off + i) % 2 ^ 32) (chunk filesz i) with _ | bs
    · rw [hread] at hfit
      obtain ⟨t, ht⟩ := Option.isSome_iff_exists.mp ((h.tables _).mpr hfit)
      exact ⟨[], M, loadFrom_unread haddr hi ht hread, forall_mem_nil _, h⟩
    · rw [hread] at hfit
      obtain ⟨hpage, hrest⟩ := hfit
      rcases hpage with hv | ⟨rfl, hsome⟩
      · obtain ⟨t, ht⟩ := exists_table (h.present hv)
        have hst := confined_of_mapped haddr h hi hv bs
        have hM₁ := h.setPage hv
          ((M.page (pageOf (M.pte d ((addr + i) % 2 ^ 32 / pgsize)))).copy 0 bs)
        rw [loadFrom_read haddr hi rfl ht hread]
        by_cases hfull : bs.length = chunk filesz i
        · obtain ⟨stores, M', hrun, hconf, hM'⟩ := ih hM₁ (by simp only [pgsize] at *; omega)
            (.inr (next_offset haddr h.le hlt hi hin hv)) hn' (hrest hfull)
          refine ⟨⟨(addr + i) % 2 ^ 32, M.pte d ((addr + i) % 2 ^ 32 / pgsize), bs⟩ :: stores,
            M', ?_, forall_mem_cons.mpr ⟨hst, hconf⟩, hM'⟩
          rw [if_pos hfull, write, hrun]
          simp only [if_pos hfull]
          rfl
        · simp only [if_neg hfull]
          exact ⟨_, _, rfl, forall_mem_singleton.mpr hst, hM₁⟩
      · obtain ⟨t, ht⟩ := Option.isSome_iff_exists.mp ((h.tables _).mpr hsome)
        have hshort : ¬ ([] : List UInt8).length = chunk filesz i := (chunk_pos hpos).ne
        rw [loadFrom_read haddr hi rfl ht hread, if_neg hshort, write_nil]
        simp only [if_neg hshort]
        exact ⟨_, M, rfl, forall_mem_singleton.mpr fun hne => absurd rfl hne, h⟩

theorem segFits_of_loadFrom (h : Loading L d M₀ userPerm M s lost) {r : Bool × ℕ × List Store × Mem}
    (hi : i % pgsize = 0) (hn : ∀ j < n, i + j * pgsize < filesz)
    (hrun : loadFrom rd d addr off filesz n i k M = .ok r)
    (hconf : ∀ st ∈ r.2.2.1, Confined M₀ s.sz st) : SegFits rd s.mapped addr off filesz n i k := by
  induction n generalizing i k M r with
  | zero => trivial
  | succ n ih =>
    obtain ⟨hpos, hn'⟩ := offsets_succ hn
    have hlt : (addr + i) % 2 ^ 32 / pgsize < 2 ^ 20 := by
      simp only [pgsize]
      omega
    rcases ht : M.table d ((addr + i) % 2 ^ 32 / pgsize / nptentries) with _ | t
    · rw [loadFrom_noTable haddr hi ht] at hrun
      cases hrun
    have htab : Room.TableAt s.mapped ((addr + i) % 2 ^ 32 / pgsize / nptentries) :=
      (h.tables _).mp (by rw [ht]; rfl)
    rw [SegFits]
    rcases hread : rd.read k ((off + i) % 2 ^ 32) (chunk filesz i) with _ | bs
    · exact htab
    · rw [loadFrom_read haddr hi rfl ht hread] at hrun
      -- the store is among those that are confined, so the page is the user's
      have hmapped : Confined M₀ s.sz
          ⟨(addr + i) % 2 ^ 32, M.pte d ((addr + i) % 2 ^ 32 / pgsize), bs⟩ → bs ≠ [] →
            (addr + i) % 2 ^ 32 / pgsize < s.mapped := by
        intro hst hne
        obtain ⟨-, hp, hu, -⟩ := hst hne
        by_contra hge
        exact h.not_user hlt (not_lt.mp hge) ⟨hp, hu⟩
      have hfits : Confined M₀ s.sz
          ⟨(addr + i) % 2 ^ 32, M.pte d ((addr + i) % 2 ^ 32 / pgsize), bs⟩ →
          (addr + i) % 2 ^ 32 / pgsize < s.mapped ∨
            bs = [] ∧ Room.TableAt s.mapped ((addr + i) % 2 ^ 32 / pgsize / nptentries) := by
        intro hst
        by_cases hne : bs = []
        · exact .inr ⟨hne, htab⟩
        · exact .inl (hmapped hst hne)
      by_cases hfull : bs.length = chunk filesz i
      · rw [if_pos hfull] at hrun
        have hne : bs ≠ [] := by
          rintro rfl
          exact (chunk_pos hpos).ne hfull
        rcases hrest : loadFrom rd d addr off filesz n (i + pgsize) (k + 1)
            (M.write (pageOf (M.pte d ((addr + i) % 2 ^ 32 / pgsize))) 0 bs) with _ | r₁
        · rw [hrest] at hrun
          cases hrun
        · rw [hrest] at hrun
          obtain rfl := Except.ok.inj hrun
          have hst := hconf _ mem_cons_self
          refine ⟨hfits hst, fun _ => ?_⟩
          exact ih (h.setPage (hmapped hst hne) _) (by simp only [pgsize] at *; omega) hn' hrest
            fun st hst => hconf st (mem_cons_of_mem _ hst)
      · rw [if_neg hfull] at hrun
        obtain rfl := Except.ok.inj hrun
        exact ⟨hfits (hconf _ mem_cons_self), fun h => absurd h hfull⟩

end LoadFrom

/-! ## The loop over the program headers -/

/-- What the memory is when the room has become `r`, or `goto bad` has been taken. -/
def Built (L : Layout) (d : ℕ) (M₀ M : Mem) (lost : Multiset ℕ) : Option Room → Prop
  | none => Owned L d M₀ M lost
  | some s => Loading L d M₀ userPerm M s lost

section Segments

variable {rd : Reader} {ph : Proghdr} {off : ℕ}

theorem vaddr_lt (ph : Proghdr) : ph.vaddr < 2 ^ 32 := Bytes.num_lt ph 4 8

theorem loadSegment_eq (htype : ph.type = elfProgLoad) (hle : ph.filesz ≤ ph.memsz) {sz r : ℕ}
    (hrun : allocuvm L M d sz ((ph.vaddr + ph.memsz) % 2 ^ 32) = .ok (r, M')) (hr : 0 < r) :
    loadSegment L rd d ph k sz M = (do
      let (done, k, stores, M) ← loaduvm rd k M' d ph.vaddr ph.off ph.filesz
      pure (if done then some (k, r) else none, stores.map fun st => (r, st), M)) := by
  rw [loadSegment, if_neg (not_not.mpr htype), if_neg (not_lt.mpr hle), hrun, ok_bind]
  exact if_neg hr.ne'

theorem loadSegment_ok (h : Loading L d M₀ userPerm M s lost) (hfit : SegmentFits rd ph k s) :
    ∃ stores M' lost', loadSegment L rd d ph k s.sz M =
        .ok ((planSegment rd ph k s).map fun p => (p.1, p.2.sz), stores, M') ∧
      (∀ p ∈ stores, Confined M₀ p.1 p.2) ∧ lost'.card = lost.card + leakSegment ph s ∧
      Built L d M₀ M' lost' ((planSegment rd ph k s).map Prod.snd) := by
  by_cases htype : ph.type = elfProgLoad
  swap
  · rw [loadSegment, if_pos htype, planSegment, if_pos htype, leakSegment, if_neg fun hl => htype hl.1]
    exact ⟨[], M, lost, rfl, forall_mem_nil _, rfl, h⟩
  rcases Nat.lt_or_ge ph.memsz ph.filesz with hlt | hle
  · rw [loadSegment, if_neg (not_not.mpr htype), if_pos hlt, planSegment, if_neg (not_not.mpr htype),
      if_pos hlt, leakSegment, if_neg fun hl => absurd hl.2.1 (not_le.mpr hlt)]
    exact ⟨[], M, lost, rfl, forall_mem_nil _, rfl, h.toOwned⟩
  obtain ⟨r, M₁, lost', hrun, hcard, hM₁⟩ := allocuvm_room h ((ph.vaddr + ph.memsz) % 2 ^ 32)
  have hleak : lost'.card = lost.card + leakSegment ph s := by
    rw [hcard, leakSegment]
    simp only [htype, hle, true_and]
  rw [planSegment, if_neg (not_not.mpr htype), if_neg (not_lt.mpr hle)]
  rcases hgrow : s.grow ((ph.vaddr + ph.memsz) % 2 ^ 32) with _ | s'
  · rw [hgrow] at hM₁
    obtain hM₁ | _ := hM₁
    refine ⟨[], M₁, lost', ?_, forall_mem_nil _, hleak, hM₁⟩
    rw [loadSegment, if_neg (not_not.mpr htype), if_neg (not_lt.mpr hle), hrun]
    rfl
  · rw [hgrow] at hM₁
    obtain _ | ⟨hpos, hM₁⟩ := hM₁
    obtain ⟨hal, hseg⟩ := hfit htype hle s' hgrow
    obtain ⟨stores, M', hload, hconf, hM'⟩ := loadFrom_ok hal hM₁ (vaddr_lt ph) rfl (.inl rfl)
      (fun j hj => by rw [zero_add]; exact mul_pgsize_lt_iff.mpr hj) hseg
    refine ⟨stores.map fun st => (s'.sz, st), M', lost', ?_, ?_, hleak, ?_⟩
    · rw [loadSegment_eq htype hle hrun hpos, loaduvm, if_neg (not_not.mpr hal), hload, ok_bind]
      simp only
      split <;> rfl
    · intro p hp
      obtain ⟨st, hst, rfl⟩ := mem_map.mp hp
      exact hconf st hst
    · simp only
      split
      · exact hM'
      · exact hM'.toOwned

theorem segmentFits_of_loadSegment (h : Loading L d M₀ userPerm M s lost)
    {r : Option (ℕ × ℕ) × List (ℕ × Store) × Mem} (hrun : loadSegment L rd d ph k s.sz M = .ok r)
    (hconf : ∀ p ∈ r.2.1, Confined M₀ p.1 p.2) : SegmentFits rd ph k s := by
  intro htype hle s' hgrow
  obtain ⟨r', M₁, lost', halloc, -, hM₁⟩ := allocuvm_room h ((ph.vaddr + ph.memsz) % 2 ^ 32)
  rw [hgrow] at hM₁
  obtain _ | ⟨hpos, hM₁⟩ := hM₁
  rw [loadSegment_eq htype hle halloc hpos, loaduvm] at hrun
  by_cases hal : ph.vaddr % pgsize = 0
  · rw [if_neg (not_not.mpr hal)] at hrun
    rcases hload : loadFrom rd d ph.vaddr ph.off ph.filesz (pagesBetween 0 ph.filesz) 0 k M₁ with
      _ | r₁
    · rw [hload] at hrun
      cases hrun
    · rw [hload] at hrun
      obtain rfl := Except.ok.inj hrun
      refine ⟨hal, segFits_of_loadFrom hal hM₁ rfl
        (fun j hj => by rw [zero_add]; exact mul_pgsize_lt_iff.mpr hj) hload fun st hst => ?_⟩
      exact hconf (s'.sz, st) (mem_map.mpr ⟨st, hst, rfl⟩)
  · rw [if_pos hal] at hrun
    cases hrun

theorem loadSegments_read (hph : readProghdr rd k off = some ph) {sz : ℕ} :
    loadSegments L rd d (n + 1) off k sz M = (do
      let (r, stores, M) ← loadSegment L rd d ph (k + 1) sz M
      match r with
      | none => pure (none, stores, M)
      | some (k, sz) => do
        let (r, more, M) ← loadSegments L rd d n ((off + 32) % 2 ^ 32) k sz M
        pure (r, stores ++ more, M)) := by
  rcases hread : rd.read k off 32 with _ | bs
  · rw [readProghdr, hread] at hph
    cases hph
  · rw [readProghdr, hread] at hph
    by_cases hlen : bs.length = 32
    · obtain rfl := Option.some.inj ((if_pos hlen).symm.trans hph)
      rw [loadSegments, hread]
      exact if_pos hlen
    · cases (if_neg hlen).symm.trans hph

theorem loadSegments_unread (hph : readProghdr rd k off = none) {sz : ℕ} :
    loadSegments L rd d (n + 1) off k sz M = .ok (none, [], M) := by
  rcases hread : rd.read k off 32 with _ | bs
  · rw [loadSegments, hread]
  · rw [readProghdr, hread] at hph
    by_cases hlen : bs.length = 32
    · cases (if_pos hlen).symm.trans hph
    · rw [loadSegments, hread]
      exact if_neg hlen

/-- **The loop over the program headers**: if all segments fit, then `loaduvm` stores only to pages
of the new image, and the image is the one that was planned. -/
theorem loadSegments_ok (h : Loading L d M₀ userPerm M s lost) (hfit : SegmentsFit rd n off k s) :
    ∃ stores M' lost', loadSegments L rd d n off k s.sz M =
        .ok ((planSegments rd n off k s).map Room.sz, stores, M') ∧
      (∀ p ∈ stores, Confined M₀ p.1 p.2) ∧
      lost'.card = lost.card + leakSegments rd n off k s ∧
      Built L d M₀ M' lost' (planSegments rd n off k s) := by
  induction n generalizing off k s M lost with
  | zero => exact ⟨[], M, lost, rfl, forall_mem_nil _, rfl, h⟩
  | succ n ih =>
    rw [planSegments, leakSegments]
    rcases hph : readProghdr rd k off with _ | ph
    · exact ⟨[], M, lost, loadSegments_unread hph, forall_mem_nil _, rfl, h.toOwned⟩
    · obtain ⟨hseg, hrest⟩ := hfit ph hph
      obtain ⟨stores, M₁, lost₁, hrun, hconf, hcard, hM₁⟩ := loadSegment_ok h hseg
      rw [loadSegments_read hph, hrun, ok_bind]
      simp only
      rcases hplan : planSegment rd ph (k + 1) s with _ | ⟨k', s'⟩
      · rw [hplan] at hM₁
        exact ⟨stores, M₁, lost₁, rfl, hconf, hcard, hM₁⟩
      · rw [hplan] at hM₁
        obtain ⟨more, M', lost', hrun', hconf', hcard', hM'⟩ := ih hM₁ (hrest k' s' hplan)
        refine ⟨stores ++ more, M', lost', ?_, ?_, ?_, hM'⟩
        · simp only [Option.map_some, hrun', ok_bind]
          rfl
        · exact forall_mem_append.mpr ⟨hconf, hconf'⟩
        · rw [hcard', hcard, add_assoc]

theorem segmentsFit_of_loadSegments (h : Loading L d M₀ userPerm M s lost)
    {r : Option ℕ × List (ℕ × Store) × Mem} (hrun : loadSegments L rd d n off k s.sz M = .ok r)
    (hconf : ∀ p ∈ r.2.1, Confined M₀ p.1 p.2) : SegmentsFit rd n off k s := by
  induction n generalizing off k s M lost r with
  | zero => trivial
  | succ n ih =>
    intro ph hph
    rw [loadSegments_read hph] at hrun
    rcases hseg : loadSegment L rd d ph (k + 1) s.sz M with _ | r₁
    · rw [hseg] at hrun
      cases hrun
    rw [hseg, ok_bind] at hrun
    obtain ⟨o, stores, M₁⟩ := r₁
    rcases o with _ | ⟨k₁, sz₁⟩
    · obtain rfl := Except.ok.inj hrun
      have hfit := segmentFits_of_loadSegment h hseg hconf
      refine ⟨hfit, fun k' s' hplan => ?_⟩
      obtain ⟨_, _, _, hrun', -⟩ := loadSegment_ok h hfit
      rw [hseg, hplan] at hrun'
      cases hrun'
    · simp only at hrun
      rcases hrest : loadSegments L rd d n ((off + 32) % 2 ^ 32) k₁ sz₁ M₁ with _ | r₂
      · rw [hrest] at hrun
        cases hrun
      rw [hrest] at hrun
      obtain rfl := Except.ok.inj hrun
      obtain ⟨hconf₁, hconf₂⟩ := forall_mem_append.mp hconf
      have hfit := segmentFits_of_loadSegment h hseg hconf₁
      refine ⟨hfit, fun k' s' hplan => ?_⟩
      obtain ⟨_, _, _, hrun', -, -, hM₁⟩ := loadSegment_ok h hfit
      rw [hseg, hplan] at hrun'
      rw [hplan] at hM₁
      cases Except.ok.inj hrun'
      exact ih hM₁ hrest hconf₂

end Segments

end Mem
end Xv6.Vm
