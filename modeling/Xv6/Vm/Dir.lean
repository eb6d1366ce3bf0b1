import Mathlib.Data.Nat.Bitwise
import Xv6.Vm.Basic

/-!
# What a page directory maps

The functions of `vm.c` read and write words.  What a page directory means is a two-level
table: `table` gives the page table for 4 MB of addresses, and `pte` the entry for a page.  A
page directory holds the pages that it is made of (`nodes`) and the pages that its entries
below `KERNBASE` name (`pages`); both are determined by `table` and `pte`.

Each store of `vm.c` is described once, by what it does to `table` and to `pte`:

* `pte_setWord` --- a store to an entry of a page table changes that entry.
* `table_graft`, `pte_graft` --- `walkpgdir` adds a page table without entries.
* `table_congr`, `pte_congr` --- a store to a page that is not one of the directory's own
  changes nothing.

A page table may not be shared, nor may it be the directory itself: `(M.nodes d).Nodup`.
-/

namespace Xv6.Vm

/-- The number of pages below `KERNBASE`. -/
def userPages : ℕ := kernbase / pgsize

/-! ## Entries -/

/-- The entry for page `f` with the permissions `perm`, as `mappages` stores it. -/
def entry (f perm : ℕ) : ℕ := f * pgsize ||| perm ||| pteP

section Entries

variable {f perm p : ℕ}

theorem or_eq_add (hp : p < pgsize) : f * pgsize ||| p = f * pgsize + p := by
  have h := Nat.two_pow_add_eq_or_of_lt (i := 12) (b := p) hp f
  rw [show f * pgsize = 2 ^ 12 * f from mul_comm _ _, ← h]

theorem or_pteP_lt (hp : perm < pgsize) : perm ||| pteP < pgsize :=
  Nat.or_lt_two_pow (n := 12) hp (by decide)

theorem entry_eq (hp : perm < pgsize) : entry f perm = f * pgsize + (perm ||| pteP) := by
  rw [entry, Nat.or_assoc, or_eq_add (or_pteP_lt hp)]

theorem pageOf_add (hp : p < pgsize) : pageOf (f * pgsize + p) = f := by
  change (f * pgsize + p) / pgsize = f
  simp only [pgsize] at hp ⊢
  omega

theorem pageOf_entry (hp : perm < pgsize) : pageOf (entry f perm) = f := by
  rw [entry_eq hp, pageOf_add (or_pteP_lt hp)]

theorem flags_entry (hp : perm < pgsize) : flags (entry f perm) = perm ||| pteP := by
  have hlt := or_pteP_lt hp
  rw [entry_eq hp, flags]
  simp only [pgsize] at hlt ⊢
  omega

theorem present_entry : present (entry f perm) = true := by
  change (entry f perm).testBit 0 = true
  simp [entry, pteP]

theorem named_entry (hp : perm < pgsize) : format.named (entry f perm) = {f} := by
  rw [Radix.Format.named, if_pos present_entry]
  exact congrArg _ (pageOf_entry hp)

theorem testBit_mul_pgsize {i : ℕ} (hi : i < 12) : (f * pgsize).testBit i = false := by
  rw [show f * pgsize = 2 ^ 12 * f from mul_comm _ _, Nat.testBit_two_pow_mul]
  simp [hi]

theorem writable_entry : writable (entry f perm) = perm.testBit 1 := by
  rw [writable, entry, Nat.testBit_or, Nat.testBit_or, testBit_mul_pgsize (by decide), Bool.false_or,
    show pteP.testBit 1 = false from rfl, Bool.or_false]

theorem user_entry : user (entry f perm) = perm.testBit 2 := by
  rw [user, entry, Nat.testBit_or, Nat.testBit_or, testBit_mul_pgsize (by decide), Bool.false_or,
    show pteP.testBit 2 = false from rfl, Bool.or_false]

theorem entry_lt (hf : f < 2 ^ 20) (hp : perm < pgsize) : entry f perm < 2 ^ 32 := by
  have hlt := or_pteP_lt hp
  rw [entry_eq hp]
  simp only [pgsize] at hlt ⊢
  omega

end Entries

theorem ok_bind {α β : Type} (a : α) (k : α → Except Stop β) :
    ((Except.ok a : Except Stop α) >>= k) = k a := rfl

/-! ## Allocatable pages -/

theorem Layout.Allocatable.lt {L : Layout} {f : ℕ} (h : L.Allocatable f) : f < 2 ^ 20 := by
  have := h.2
  simp only [pgsize, phystop] at this
  omega

theorem Layout.Allocatable.ne_zero {L : Layout} {f : ℕ} (h : L.Allocatable f) : f ≠ 0 := by
  rintro rfl
  have h1 := h.1
  have h2 := L.ordered
  have h3 := L.text
  simp only [kernlink, extmem] at h3
  omega

namespace Mem

/-! ## Words -/

section Words

variable {M : Mem} {f g i x : ℕ} {b : Bytes pgsize}

theorem page_setPage_of_ne (h : g ≠ f) : (M.setPage f b).page g = M.page g :=
  Function.update_of_ne h _ _

theorem page_setPage_same : (M.setPage f b).page f = b := Function.update_self _ _ _

theorem page_setWord_of_ne (h : g ≠ f) : (M.setWord f i x).page g = M.page g :=
  page_setPage_of_ne h

@[simp] theorem free_zero : (M.zero f).free = M.free := rfl

theorem word_congr {M' : Mem} (h : M'.page f = M.page f) : M'.word f = M.word f := by
  funext i
  rw [word, word, h]

theorem word_setWord (hi : i < nptentries) (hx : x < 2 ^ 32) :
    (M.setWord f i x).word = Radix.set M.word f i x := by
  funext g j
  by_cases hg : g = f
  · subst hg
    by_cases hj : j = i
    · subst hj
      rw [Radix.set_same, word, setWord, page_setPage_same, Bytes.num_setNum_same]
      · exact Nat.mod_eq_of_lt hx
      · simp only [nptentries, pgsize] at hi ⊢
        omega
    · rw [Radix.set_word_of_ne hj, word, word, setWord, page_setPage_same]
      exact Bytes.num_setNum_of_disjoint 4 (4 * j) (by omega)
  · rw [Radix.set_of_ne hg, word_congr (page_setWord_of_ne hg)]

theorem word_zero : (M.zero f).word = Radix.clear M.word f := by
  funext g j
  by_cases hg : g = f
  · subst hg
    rw [Radix.clear_same, word, zero, page_setPage_same, Bytes.num_zero]
  · rw [Radix.clear_of_ne hg, zero, word_congr (page_setPage_of_ne hg)]

end Words

/-! ## The view of a directory -/

section View

variable (M : Mem) (d : ℕ)

/-- The page table for the addresses whose `PDX` is `j`. -/
def table (j : ℕ) : Option ℕ := format.child M.word d j

/-- The entry for page `v`, which is `0` if there is no page table for it. -/
def pte (v : ℕ) : ℕ := format.leaf M.word d v

/-- The directory and its page tables. -/
def nodes : Multiset ℕ := format.nodes M.word d

/-- The pages that the entries below `KERNBASE` name. -/
def pages : Multiset ℕ := format.leaves M.word d userPages

/-- The pages that go with the directory when `freevm` is called. -/
def held : Multiset ℕ := M.nodes d + M.pages d

end View

section Lookup

variable {M M' : Mem} {d t u v j x : ℕ}

theorem div_nptentries_lt (hv : v < 2 ^ 20) : v / nptentries < nptentries := by
  simp only [nptentries]
  omega

theorem mod_nptentries_lt (v : ℕ) : v % nptentries < nptentries := Nat.mod_lt _ (by decide)

theorem userPages_lt (hv : v < userPages) : v < 2 ^ 20 := by
  simp only [userPages, kernbase, pgsize] at hv
  omega

theorem pte_of_table (h : M.table d (v / nptentries) = some t) :
    M.pte d v = M.word t (v % nptentries) :=
  Radix.Format.leaf_of_child (F := format) h

theorem pte_of_no_table (h : M.table d (v / nptentries) = none) : M.pte d v = 0 :=
  Radix.Format.leaf_of_none (F := format) h

theorem pdx_eq (hv : v < 2 ^ 20) : pdx (v * pgsize) = v / nptentries := by
  simp only [pdx, pgsize, nptentries]
  omega

theorem ptx_eq : ptx (v * pgsize) = v % nptentries := by
  simp only [ptx, pgsize, nptentries]
  omega

theorem walk_eq (hv : v < 2 ^ 20) :
    M.walk d (v * pgsize) = (M.table d (v / nptentries)).map fun t => (t, v % nptentries) := by
  rw [walk, pdx_eq hv, ptx_eq, table, Radix.Format.child]
  split <;> simp_all

theorem mem_nodes {f : ℕ} : f ∈ M.nodes d ↔ f = d ∨ ∃ j < nptentries, M.table d j = some f :=
  Radix.Format.mem_nodes

theorem table_mem (hv : v < 2 ^ 20) (h : M.table d (v / nptentries) = some t) : t ∈ M.nodes d :=
  mem_nodes.mpr (.inr ⟨v / nptentries, div_nptentries_lt hv, h⟩)

theorem root_mem : d ∈ M.nodes d := by
  rw [mem_nodes]
  exact Or.inl rfl

theorem mem_pages {f : ℕ} :
    f ∈ M.pages d ↔ ∃ v < userPages, present (M.pte d v) = true ∧ pageOf (M.pte d v) = f := by
  rw [pages, Radix.Format.mem_leaves]
  exact exists_congr fun v => and_congr_right fun _ => Radix.Format.mem_named

/-! ## What the view depends on -/

theorem table_congr (h : M'.page d = M.page d) (j : ℕ) : M'.table d j = M.table d j :=
  Radix.Format.child_congr (word_congr h)

theorem pte_congr (h : ∀ f ∈ M.nodes d, M'.page f = M.page f) (hv : v < 2 ^ 20) :
    M'.pte d v = M.pte d v :=
  Radix.Format.leaf_congr (F := format) (v := v) (fun f hf => word_congr (h f hf))
    (div_nptentries_lt hv)

theorem nodes_congr (h : ∀ j < nptentries, M'.table d j = M.table d j) : M'.nodes d = M.nodes d :=
  Radix.Format.nodes_congr (F := format) h

theorem card_nodes :
    (M.nodes d).card = 1 + {j ∈ Finset.range nptentries | (M.table d j).isSome}.card :=
  Radix.Format.card_nodes

theorem card_pages :
    (M.pages d).card = {v ∈ Finset.range userPages | present (M.pte d v) = true}.card :=
  Radix.Format.card_leaves

theorem nodes_update (hj : j < nptentries) (hnone : M.table d j = none)
    (h : ∀ k < nptentries, M'.table d k = if k = j then some t else M.table d k) :
    M'.nodes d = t ::ₘ M.nodes d :=
  Radix.Format.nodes_update (F := format) hj hnone h

/-- The entry for page `v`, if the page is mapped. -/
def mapping (M : Mem) (d v : ℕ) : Option ℕ :=
  if present (M.pte d v) then some (M.pte d v) else none

theorem named_pte : format.named (M.pte d v) = (M.mapping d v).elim 0 fun x => {pageOf x} := by
  rw [mapping, Radix.Format.named]
  split <;> rfl

theorem pages_congr_named (h : ∀ v < userPages, format.named (M'.pte d v) = format.named (M.pte d v)) :
    M'.pages d = M.pages d :=
  Radix.Format.leaves_congr (F := format) h

theorem pages_congr_mapping (h : ∀ v < userPages, M'.mapping d v = M.mapping d v) :
    M'.pages d = M.pages d :=
  pages_congr_named fun v hv => by rw [named_pte, named_pte, h v hv]

theorem mapping_congr (h : M'.pte d v = M.pte d v) : M'.mapping d v = M.mapping d v := by
  rw [mapping, mapping, h]

theorem pages_congr (h : ∀ v < userPages, M'.pte d v = M.pte d v) : M'.pages d = M.pages d :=
  pages_congr_mapping fun v hv => mapping_congr (h v hv)

theorem mapping_eq_none : M.mapping d v = none ↔ present (M.pte d v) = false := by
  rw [mapping]
  split <;> simp_all

theorem mapping_of_present (h : present (M.pte d v) = true) : M.mapping d v = some (M.pte d v) :=
  if_pos h

theorem pageOf_inj (hn : (M.pages d).Nodup) (hu : u < userPages) (hv : v < userPages)
    (hpu : present (M.pte d u) = true) (hpv : present (M.pte d v) = true)
    (h : pageOf (M.pte d u) = pageOf (M.pte d v)) : u = v :=
  Radix.Format.leaf_inj (F := format) hn hu hv (Radix.Format.mem_named.mpr ⟨hpu, h⟩)
    (Radix.Format.mem_named.mpr ⟨hpv, rfl⟩)

theorem pages_update (hv : v < userPages)
    (h : ∀ u < userPages, M'.pte d u = if u = v then x else M.pte d u) :
    M'.pages d + format.named (M.pte d v) = M.pages d + format.named x :=
  Radix.Format.leaves_update hv h

theorem pages_add (hv : v < userPages) (hold : present (M.pte d v) = false) {f : ℕ}
    (hx : present x = true) (hf : pageOf x = f)
    (h : ∀ u < userPages, M'.pte d u = if u = v then x else M.pte d u) :
    M'.pages d = f ::ₘ M.pages d := by
  have hsum := pages_update hv h
  rw [Radix.Format.named, Radix.Format.named, if_neg (by simp [hold]), if_pos hx, add_zero] at hsum
  rw [hsum, ← Multiset.singleton_add, add_comm, ← hf]

theorem pages_remove (hv : v < userPages) (hold : present (M.pte d v) = true)
    (h : ∀ u < userPages, M'.pte d u = if u = v then 0 else M.pte d u) :
    M.pages d = pageOf (M.pte d v) ::ₘ M'.pages d := by
  have hsum := pages_update hv h
  rw [Radix.Format.named, if_pos hold, Radix.Format.named_zero, add_zero] at hsum
  rw [← hsum, ← Multiset.singleton_add, add_comm]

end Lookup

/-! ## Stores -/

section Stores

variable {M : Mem} {d t u v j k x f g : ℕ}

theorem table_ne_root (hn : (M.nodes d).Nodup) (hv : v < 2 ^ 20)
    (h : M.table d (v / nptentries) = some t) : t ≠ d :=
  Radix.Format.child_ne_root (F := format) (j := v / nptentries) hn (div_nptentries_lt hv) h

section SetWord

variable (hn : (M.nodes d).Nodup) (hv : v < 2 ^ 20) (ht : M.table d (v / nptentries) = some t)

include hn hv ht

theorem table_setWord : (M.setWord t (v % nptentries) x).table d k = M.table d k :=
  table_congr (page_setWord_of_ne (table_ne_root hn hv ht).symm) k

theorem pte_setWord (hx : x < 2 ^ 32) (hu : u < 2 ^ 20) :
    (M.setWord t (v % nptentries) x).pte d u = if u = v then x else M.pte d u := by
  rw [pte, word_setWord (mod_nptentries_lt v) hx]
  exact Radix.Format.leaf_set (F := format) (v := v) (u := u) hn (div_nptentries_lt hv) ht
    (div_nptentries_lt hu)

end SetWord

/-- The memory after `walkpgdir` has made `t` the page table for `j`. -/
def graft (M : Mem) (d j t : ℕ) : Mem :=
  (M.zero t).setWord d j (t * pgsize ||| pteP ||| pteW ||| pteU)

theorem pde_eq : t * pgsize ||| pteP ||| pteW ||| pteU = t * pgsize + 7 := by
  rw [Nat.or_assoc, Nat.or_assoc, or_eq_add (by decide)]
  rfl

section Graft

variable (hj : j < nptentries) (hf : t < 2 ^ 20)

include hj hf

theorem word_graft :
    (M.graft d j t).word = Radix.Format.graft M.word d j t (t * pgsize + 7) := by
  have hlt : t * pgsize + 7 < 2 ^ 32 := by
    simp only [pgsize]
    omega
  rw [graft, pde_eq, word_setWord hj hlt, word_zero]
  rfl

variable (ht : t ∉ M.nodes d)

include ht

theorem table_graft : (M.graft d j t).table d k = if k = j then some t else M.table d k := by
  rw [table, word_graft hj hf]
  refine Radix.Format.child_graft (F := format) ht ?_ (pageOf_add (by decide))
  change (t * pgsize + 7).testBit 0 = true
  rw [← or_eq_add (by decide), Nat.testBit_or]
  simp

theorem pte_graft (hn : (M.nodes d).Nodup) (hnone : M.table d j = none) (hu : u < 2 ^ 20) :
    (M.graft d j t).pte d u = M.pte d u := by
  rw [pte, word_graft hj hf]
  refine Radix.Format.leaf_graft (F := format) (v := u) ht ?_ (pageOf_add (by decide)) hn hnone
    (div_nptentries_lt hu)
  change (t * pgsize + 7).testBit 0 = true
  rw [← or_eq_add (by decide), Nat.testBit_or]
  simp

end Graft

theorem page_graft_of_ne (hd : g ≠ d) (ht : g ≠ t) : (M.graft d j t).page g = M.page g := by
  rw [graft, page_setWord_of_ne hd, zero, page_setPage_of_ne ht]

/-! ## An empty directory -/

theorem table_zero : (M.zero d).table d j = none := by
  rw [table, word_zero, Radix.Format.child, Radix.clear_same]
  rfl

theorem pte_zero : (M.zero d).pte d v = 0 := pte_of_no_table table_zero

theorem nodes_zero : (M.zero d).nodes d = {d} := by
  rw [nodes, word_zero]
  exact Radix.Format.nodes_clear

theorem pages_zero : (M.zero d).pages d = 0 := Radix.Format.leaves_eq_zero fun _ _ => pte_zero

end Stores

end Mem
end Xv6.Vm
