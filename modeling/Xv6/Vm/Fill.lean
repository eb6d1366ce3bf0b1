import Xv6.Vm.Map

/-!
# Filling a range of user pages

`allocuvm` and `copyuvm` map pages that come from the free list, one after the other.  Each
round asks for a page, and then for a page table if there is none.

* `addPage_spec` --- a round finds no page for the page table, or adds a page.
* `advance` --- any loop of such rounds comes to its end, or to a round that asks for a page
  while there is none, or to one that takes the last page and then asks for a page table.  Which
  of these it is can be read off the requests that find an empty free list.
-/

namespace Xv6.Vm.Mem

open Function List

variable {L : Layout} {M M' M'' : Mem} {d e t u v j f g n x : ℕ} {fs : List ℕ}

/-! ## Pages from the free list -/

/-- In `M'` the pages `P` have been mapped to pages that were free, and hold `b`. -/
structure Filled (d : ℕ) (P : ℕ → Prop) (b : ℕ → Bytes pgsize) (perm : ℕ → ℕ) (M M' : Mem) :
    Prop where
  suffix : M'.free <:+ M.free
  total : (M'.free : Multiset ℕ) + M'.held d = M.free + M.held d
  pte : ∀ u < 2 ^ 20, ¬ P u → M'.pte d u = M.pte d u
  filled : ∀ u, P u → ∃ f ∈ M.free, M'.pte d u = entry f (perm u) ∧ M'.page f = b u
  keeps : ∀ j t, M.table d j = some t → M'.table d j = some t
  others : ∀ j, (∀ u, P u → u / nptentries ≠ j) → M'.table d j = M.table d j
  has : ∀ u, P u → (M'.table d (u / nptentries)).isSome
  nodes : ∀ t ∈ M'.nodes d, t ∈ M.free ∨ t ∈ M.nodes d
  page : ∀ g ∉ M.free, g ∉ M.nodes d → M'.page g = M.page g

section Filled

variable {P Q : ℕ → Prop} {b : ℕ → Bytes pgsize} {perm : ℕ → ℕ}

theorem Filled.refl (M : Mem) (hP : ∀ u, ¬ P u) : Filled d P b perm M M where
  suffix := suffix_rfl
  total := rfl
  pte _ _ _ := rfl
  filled u hu := absurd hu (hP u)
  keeps _ _ h := h
  others _ _ := rfl
  has u hu := absurd hu (hP u)
  nodes _ h := .inr h
  page _ _ _ := rfl

section

variable (h : Filled d P b perm M M')
include h

theorem Filled.sound (hs : Sound L M d) : Sound L M' d := hs.of_eq h.total

theorem Filled.isSome (hj : (M.table d j).isSome) : (M'.table d j).isSome := by
  obtain ⟨t, ht⟩ := Option.isSome_iff_exists.mp hj
  rw [h.keeps j t ht]
  rfl

theorem Filled.present (hu : P u) : present (M'.pte d u) = true := by
  obtain ⟨f, -, hpte, -⟩ := h.filled u hu
  rw [hpte]
  exact present_entry

theorem Filled.congr (hPQ : ∀ u, P u ↔ Q u) : Filled d Q b perm M M' := by
  obtain rfl : P = Q := funext fun u => propext (hPQ u)
  exact h

theorem Filled.notMem (hg : g ∉ M.free) (hgn : g ∉ M.nodes d) : g ∉ M'.free ∧ g ∉ M'.nodes d :=
  ⟨fun hg' => hg (h.suffix.subset hg'), fun hg' => (h.nodes g hg').elim hg hgn⟩

end

theorem mem_pages_of_pte {p : ℕ} (hu : u < userPages) (hp : p < pgsize)
    (h : M.pte d u = entry f p) : f ∈ M.pages d := by
  refine mem_pages.mpr ⟨u, hu, ?_, ?_⟩
  · rw [h]
    exact present_entry
  · rw [h]
    exact pageOf_entry hp

theorem Sound.notMem_of_mapped (hs : Sound L M d) (h : f ∈ M.pages d) :
    f ∉ M.free ∧ f ∉ M.nodes d :=
  ⟨fun hf => hs.notMem_held hf (Multiset.mem_add.mpr (.inr h)),
    notMem_nodes_of_mem_pages hs.held_nodup h⟩

theorem Filled.trans (h : Filled d P b perm M M') (h' : Filled d Q b perm M' M'')
    (hs' : Sound L M' d) (hP : ∀ u, P u → u < userPages) (hperm : ∀ u, P u → perm u < pgsize) :
    Filled d (fun u => P u ∨ Q u) b perm M M'' where
  suffix := h'.suffix.trans h.suffix
  total := h'.total.trans h.total
  pte u hu hno := by
    rw [h'.pte u hu fun hq => hno (.inr hq), h.pte u hu fun hp => hno (.inl hp)]
  filled u hu := by
    by_cases hq : Q u
    · obtain ⟨f, hf, hpte, hpage⟩ := h'.filled u hq
      exact ⟨f, h.suffix.subset hf, hpte, hpage⟩
    · have hp := hu.resolve_right hq
      obtain ⟨f, hf, hpte, hpage⟩ := h.filled u hp
      obtain ⟨hff, hfn⟩ := hs'.notMem_of_mapped (mem_pages_of_pte (hP u hp) (hperm u hp) hpte)
      refine ⟨f, hf, ?_, ?_⟩
      · rw [h'.pte u (userPages_lt (hP u hp)) hq, hpte]
      · rw [h'.page f hff hfn, hpage]
  keeps j t hj := h'.keeps j t (h.keeps j t hj)
  others j hj := by
    rw [h'.others j fun u hu => hj u (.inr hu), h.others j fun u hu => hj u (.inl hu)]
  has u hu := hu.elim (fun hp => h'.isSome (h.has u hp)) fun hq => h'.has u hq
  nodes t ht := (h'.nodes t ht).elim (fun ht => .inl (h.suffix.subset ht)) fun ht => h.nodes t ht
  page g hg hgn := by
    obtain ⟨hg', hgn'⟩ := h.notMem hg hgn
    rw [h'.page g hg' hgn', h.page g hg hgn]

end Filled

/-! ## One round -/

/-- The memory after `kalloc` has returned `f` and the page has been filled. -/
def taken (M : Mem) (f : ℕ) (fs : List ℕ) (b : Bytes pgsize) : Mem :=
  ({ M with free := fs } : Mem).setPage f b

section Taken

variable {b : Bytes pgsize} (hs : Sound L M d) (h : M.free = f :: fs)

include hs h

omit hs in
theorem mem_free : f ∈ M.free := by
  rw [h]
  exact mem_cons_self

theorem page_taken (hg : g ∈ M.nodes d) : (M.taken f fs b).page g = M.page g := by
  refine page_setPage_of_ne ?_
  rintro rfl
  exact hs.notMem_nodes (mem_free h) hg

theorem table_taken (j : ℕ) : (M.taken f fs b).table d j = M.table d j :=
  table_congr (page_taken hs h root_mem) j

theorem pte_taken (hu : u < 2 ^ 20) : (M.taken f fs b).pte d u = M.pte d u :=
  pte_congr (fun _ hg => page_taken hs h hg) hu

theorem nodes_taken : (M.taken f fs b).nodes d = M.nodes d :=
  nodes_congr fun j _ => table_taken hs h j

theorem held_taken : (M.taken f fs b).held d = M.held d := by
  rw [held, held, nodes_taken hs h, pages_congr fun u hu => pte_taken hs h (userPages_lt hu)]

theorem sound_taken : Sound L (M.taken f fs b) d := by
  have heq : f ::ₘ (((M.taken f fs b).free : Multiset ℕ) + (M.taken f fs b).held d) =
      M.free + M.held d := by
    rw [held_taken hs h, h, ← Multiset.cons_coe, Multiset.cons_add]
    rfl
  refine ⟨?_, fun g hg => hs.takes g ?_⟩
  · have hn := hs.nodup
    rw [← heq] at hn
    exact (Multiset.nodup_cons.mp hn).2
  · rw [← heq]
    exact Multiset.mem_cons_of_mem hg

end Taken

theorem mappages_one (hv : v < 2 ^ 20) {pa perm : ℕ} :
    M.mappages d (v * pgsize) pgsize pa perm = M.mapPage d (v * pgsize) pa perm := by
  have h : M.mappages d (v * pgsize) ((0 + 1) * pgsize) pa perm = mapFrom d perm 0 (v * pgsize) pa M :=
    mappages_eq hv
  rw [zero_add, one_mul] at h
  rw [h, mapFrom]

theorem addPage_spec {perm : ℕ} (hs : Sound L M d) (hv : v < userPages)
    (habs : present (M.pte d v) = false) (hp : perm < pgsize) (h : M.free = f :: fs)
    (b : Bytes pgsize) :
    (M.table d (v / nptentries) = none ∧ fs = [] ∧
      (M.taken f fs b).mappages d (v * pgsize) pgsize (f * pgsize) perm =
        .ok (false, M.taken f fs b)) ∨
    ∃ M', (M.taken f fs b).mappages d (v * pgsize) pgsize (f * pgsize) perm = .ok (true, M') ∧
      Filled d (· = v) (fun _ => b) (fun _ => perm) M M' ∧
      M'.free.length + (if (M.table d (v / nptentries)).isSome then 1 else 2) = M.free.length := by
  have hs₁ : Sound L (M.taken f fs b) d := sound_taken hs h
  have hmem := mem_free h
  rw [mappages_one (userPages_lt hv)]
  rcases mapPage_spec (v := v) (f := f) hs₁.distinct (userPages_lt hv) (by rwa [pte_taken hs h (userPages_lt hv)])
    (hs.takes_free hmem).lt hp with ⟨ht, hfree, hrun⟩ | ⟨M', hrun, hM'⟩
  · refine .inl ⟨?_, hfree, hrun⟩
    rwa [table_taken hs h] at ht
  · have hpte : ∀ u < 2 ^ 20, M'.pte d u = if u = v then entry f perm else M.pte d u := fun u hu => by
      rw [hM'.pte u hu, pte_taken hs h hu]
    have hnodes : (M'.free : Multiset ℕ) + M'.nodes d = fs + M.nodes d := by
      rw [hM'.total, nodes_taken hs h]
      rfl
    have hpages : M'.pages d = f ::ₘ M.pages d :=
      pages_add hv habs present_entry (pageOf_entry hp) fun u hu => hpte u (userPages_lt hu)
    have hff : f ∉ fs := by
      have hn := hs.free_nodup
      rw [h] at hn
      exact (nodup_cons.mp hn).1
    have hfn : f ∉ M.nodes d := hs.notMem_nodes hmem
    have hfree : (M'.free : Multiset ℕ) + M'.held d = M.free + M.held d := by
      rw [held, held, hpages, ← add_assoc, hnodes, h, ← Multiset.cons_coe, Multiset.add_cons,
        Multiset.cons_add, add_assoc]
    refine .inr ⟨M', hrun, ⟨?_, hfree, ?_, ?_, ?_, ?_, ?_, ?_, ?_⟩, ?_⟩
    · rw [h]
      exact hM'.suffix.trans (suffix_cons f fs)
    · intro u hu huv
      rw [hpte u hu, if_neg huv]
    · rintro u rfl
      refine ⟨f, hmem, by rw [hpte u (userPages_lt hv), if_pos rfl], ?_⟩
      rw [hM'.page f hff (by rwa [nodes_taken hs h])]
      exact page_setPage_same
    · intro j t hj
      exact hM'.keeps j t (by rwa [table_taken hs h])
    · intro j hj
      rw [hM'.others j (hj v rfl).symm, table_taken hs h]
    · rintro u rfl
      exact hM'.has
    · intro t ht
      have hmem' : t ∈ (fs : Multiset ℕ) + M.nodes d := hnodes ▸ Multiset.mem_add.mpr (.inr ht)
      refine (Multiset.mem_add.mp hmem').imp_left fun ht => ?_
      rw [h]
      exact mem_cons_of_mem f (Multiset.mem_coe.mp ht)
    · intro g hg hgn
      rw [h] at hg
      rw [hM'.page g (fun hg' => hg (mem_cons_of_mem f hg')) (by rwa [nodes_taken hs h])]
      refine page_setPage_of_ne ?_
      rintro rfl
      exact hg mem_cons_self
    · have hlen := hM'.length
      rw [table_taken hs h] at hlen
      rw [h, length_cons, ← show (M.taken f fs b).free.length = fs.length from rfl, ← hlen]
      split <;> rfl

/-! ## The requests of a loop -/

/-- What `kalloc` is asked for. -/
inductive Request where
  | page
  | table
  deriving DecidableEq

/-- The requests for `n` pages from page `v` on, if `has` tells which page tables there are. -/
def requests (has : ℕ → Bool) : ℕ → ℕ → List Request
  | 0, _ => []
  | n + 1, v =>
    .page :: ((if has (v / nptentries) then [] else [.table]) ++
      requests (update has (v / nptentries) true) n (v + 1))

theorem requests_table {has : ℕ → Bool} (h : has (v / nptentries) = false) :
    (requests has (n + 1) v).drop 1 =
      .table :: requests (update has (v / nptentries) true) n (v + 1) := by
  rw [requests, h]
  rfl

theorem requests_eq_nil {has : ℕ → Bool} : requests has n v = [] ↔ n = 0 := by
  cases n with
  | zero => exact iff_of_true rfl rfl
  | succ n => exact iff_of_false (by rw [requests]; exact cons_ne_nil _ _) n.succ_ne_zero

theorem requests_congr {has has' : ℕ → Bool}
    (h : ∀ u, v ≤ u → u < v + n → has (u / nptentries) = has' (u / nptentries)) :
    requests has n v = requests has' n v := by
  induction n generalizing v has has' with
  | zero => rfl
  | succ n ih =>
    have hv := h v le_rfl (by omega)
    rw [requests, requests, hv, ih]
    intro u hu hu'
    by_cases heq : u / nptentries = v / nptentries
    · rw [heq, update_self, update_self]
    · rw [update_of_ne heq, update_of_ne heq]
      exact h u (by omega) (by omega)

/-- The page tables of the directory. -/
def has (M : Mem) (d j : ℕ) : Bool := (M.table d j).isSome

theorem Filled.has_eq {b : ℕ → Bytes pgsize} {perm : ℕ → ℕ} (h : Filled d (· = v) b perm M M') :
    M'.has d = update (M.has d) (v / nptentries) true := by
  funext j
  by_cases hj : j = v / nptentries
  · subst hj
    rw [update_self]
    exact h.has v rfl
  · rw [update_of_ne hj, Mem.has, Mem.has, h.others j]
    rintro u rfl
    exact fun he => hj he.symm

theorem requests_round {F F' : ℕ}
    (hF : F' + (if (M.table d (v / nptentries)).isSome then 1 else 2) = F) :
    (requests (M.has d) (n + 1) v).drop F =
      (requests (update (M.has d) (v / nptentries) true) n (v + 1)).drop F' := by
  rw [requests, Mem.has]
  split at hF
  · rename_i h
    subst hF
    rw [if_pos h]
    rfl
  · rename_i h
    subst hF
    rw [if_neg h]
    rfl

/-! ## Loops -/

section Advance

variable {α : Type} (loop : ℕ → ℕ → Mem → α) (Inv : Mem → Prop) (b : ℕ → Bytes pgsize)
  (perm : ℕ → ℕ)

theorem advance
    (hinv : ∀ {v M M'}, Inv M → Filled d (· = v) b perm M M' → Inv M')
    (he : e ≤ userPages)
    (hstep : ∀ {n v M f fs M'}, v < e → Inv M → M.free = f :: fs →
      (M.taken f fs (b v)).mappages d (v * pgsize) pgsize (f * pgsize) (perm v) = .ok (true, M') →
      loop (n + 1) v M = loop n (v + 1) M')
    (hperm : ∀ u, perm u < pgsize) (hM : Inv M) (hs : Sound L M d) (hn : v + n ≤ e)
    (habs : ∀ u, v ≤ u → u < v + n → present (M.pte d u) = false) :
    ∃ k ≤ n, ∃ M', Filled d (fun u => v ≤ u ∧ u < v + k) b perm M M' ∧ Inv M' ∧
      loop n v M = loop (n - k) (v + k) M' ∧
      (requests (M.has d) n v).drop M.free.length =
        (requests (M'.has d) (n - k) (v + k)).drop M'.free.length ∧
      (k = n ∨ M'.free = [] ∨
        (∃ f, M'.free = [f]) ∧ M'.table d ((v + k) / nptentries) = none) := by
  induction n generalizing v M with
  | zero => exact ⟨0, le_rfl, M, .refl M fun u hu => by omega, hM, rfl, rfl, .inl rfl⟩
  | succ n ih =>
    have hstop : ∀ (_ : M.free = [] ∨ (∃ f, M.free = [f]) ∧ M.table d (v / nptentries) = none),
        ∃ k ≤ n + 1, ∃ M', Filled d (fun u => v ≤ u ∧ u < v + k) b perm M M' ∧ Inv M' ∧
          loop (n + 1) v M = loop (n + 1 - k) (v + k) M' ∧
          (requests (M.has d) (n + 1) v).drop M.free.length =
            (requests (M'.has d) (n + 1 - k) (v + k)).drop M'.free.length ∧
          (k = n + 1 ∨ M'.free = [] ∨
            (∃ f, M'.free = [f]) ∧ M'.table d ((v + k) / nptentries) = none) := fun h =>
      ⟨0, Nat.zero_le _, M, .refl M fun u hu => by omega, hM, rfl, rfl, .inr h⟩
    rcases eq_or_ne M.free [] with hfree | hne
    · exact hstop (.inl hfree)
    · obtain ⟨f, fs, hfree⟩ := exists_cons_of_ne_nil hne
      rcases addPage_spec hs (by omega) (habs v le_rfl (by omega)) (hperm v) hfree (b v) with
        ⟨ht, hnil, -⟩ | ⟨M₁, hrun, hM₁, hlen⟩
      · exact hstop (.inr ⟨⟨f, hnil ▸ hfree⟩, ht⟩)
      · have hM₁' : Filled d (· = v) b perm M M₁ := by
          refine { hM₁ with filled := ?_ }
          rintro u rfl
          exact hM₁.filled u rfl
        have habs₁ : ∀ u, v + 1 ≤ u → u < v + 1 + n → present (M₁.pte d u) = false := by
          intro u hu hu'
          rw [hM₁.pte u (userPages_lt (by omega)) (by omega)]
          exact habs u (by omega) (by omega)
        obtain ⟨k, hk, M', hM', hI', hloop, hreq, hend⟩ := ih (v := v + 1)
          (hinv hM hM₁') (hM₁.sound hs) (by omega) habs₁
        have hvk : v + 1 + k = v + (k + 1) := by omega
        rw [hvk] at hloop hreq hend
        refine ⟨k + 1, by omega, M', ?_, hI', ?_, ?_, ?_⟩
        · refine (hM₁'.trans hM' (hM₁.sound hs) ?_ fun u _ => hperm u).congr ?_
          · rintro u rfl
            omega
          · intro u
            omega
        · rw [hstep (by omega) hM hfree hrun, hloop, Nat.add_sub_add_right]
        · rw [requests_round hlen, ← hM₁.has_eq, hreq, Nat.add_sub_add_right]
        · exact hend.imp_left fun h => by rw [h]

end Advance

theorem next_request {reqs : List Request} {k : ℕ} (hk : k ≤ n)
    (hreqs : reqs = (requests (M.has d) (n - k) (v + k)).drop M.free.length)
    (hend : k = n ∨ M.free = [] ∨ (∃ f, M.free = [f]) ∧ M.table d ((v + k) / nptentries) = none) :
    reqs = [] ∧ k = n ∨
    (∃ m rest, reqs = .page :: rest ∧ n - k = m + 1 ∧ M.free = []) ∨
    ∃ m f has, reqs = .table :: requests has m (v + k + 1) ∧ n - k = m + 1 ∧ M.free = [f] ∧
      M.table d ((v + k) / nptentries) = none := by
  rcases eq_or_lt_of_le hk with rfl | hlt
  · rw [Nat.sub_self, requests, drop_nil] at hreqs
    exact .inl ⟨hreqs, rfl⟩
  · obtain ⟨m, hm⟩ := Nat.exists_eq_add_of_lt (Nat.sub_pos_of_lt hlt)
    rw [zero_add] at hm
    rw [hm] at hreqs
    rcases hend with rfl | hnil | ⟨⟨f, hf⟩, hnone⟩
    · exact absurd rfl (Nat.ne_of_lt hlt)
    · rw [hnil] at hreqs
      exact .inr (.inl ⟨m, _, hreqs, hm, hnil⟩)
    · rw [hf, length_singleton, requests_table (by rw [Mem.has, hnone]; rfl)] at hreqs
      exact .inr (.inr ⟨m, f, _, hreqs, hm, hf, hnone⟩)

end Xv6.Vm.Mem
