import Xv6.Vm.Args
import Xv6.Vm.Grow

/-!
# `copyout`

`copyout` goes through a range of addresses page by page, modulo `2 ^ 32`, and copies to the pages
that user code may use.  The one thing that it does not look at is whether there is a page table:
`uva2ka` follows the null pointer that `walkpgdir` returns if there is none.

* `copyoutFrom_spec` --- the loop, if it does not come to an address without a page table.
* `walks_of_copyoutFrom` --- and if it returns then it has not come to one.

That user code may use a page says nothing about where it is: what is needed is that no two pages
are the same and that none of them is part of the directory (`Apart`).
-/

namespace Xv6.Vm.Mem

open List

variable {M M' : Mem} {d va a b i n fuel : ℕ} {p : List UInt8}

/-! ## Addresses -/

/-- User code may use the page of an address, which is taken modulo `2 ^ 32`. -/
def Accessible (M : Mem) (d a : ℕ) : Prop :=
  present (M.pte d (a % 2 ^ 32 / pgsize)) = true ∧ user (M.pte d (a % 2 ^ 32 / pgsize)) = true

/-- The page of an address has a page table. -/
def HasTable (M : Mem) (d a : ℕ) : Prop := (M.table d (a % 2 ^ 32 / pgsize / nptentries)).isSome

/-- Where the byte at an address is: a page and an offset. -/
def locate (M : Mem) (d a : ℕ) : ℕ × ℕ := (pageOf (M.pte d (a % 2 ^ 32 / pgsize)), a % 2 ^ 32 % pgsize)

/-- A byte of memory. -/
def byteAt (M : Mem) (q : ℕ × ℕ) : UInt8 := (M.page q.1).byte q.2

/-- The pages that user code may use are distinct, none of them is part of the directory, and they are
in physical memory, so that `p2v` does not wrap around to a null pointer. -/
structure Apart (M : Mem) (d : ℕ) : Prop where
  inj : ∀ a b, M.Accessible d a → M.Accessible d b → M.locate d a = M.locate d b → a % 2 ^ 32 = b % 2 ^ 32
  node : ∀ a, M.Accessible d a → (M.locate d a).1 ∉ M.nodes d
  low : ∀ a, M.Accessible d a → (M.locate d a).1 * pgsize < phystop

/-- Every address before which user code may use all of the range has a page table. -/
def Walks (M : Mem) (d va n : ℕ) : Prop :=
  ∀ i < n, (∀ j < i, M.Accessible d (va + j)) → M.HasTable d (va + i)

section Address

theorem accessible_of_mod (h : a % 2 ^ 32 = b % 2 ^ 32) : M.Accessible d a ↔ M.Accessible d b := by
  rw [Accessible, h, Accessible]

theorem hasTable_of_mod (h : a % 2 ^ 32 = b % 2 ^ 32) : M.HasTable d a ↔ M.HasTable d b := by
  rw [HasTable, h, HasTable]

theorem locate_of_mod (h : a % 2 ^ 32 = b % 2 ^ 32) : M.locate d a = M.locate d b := by
  rw [locate, h, locate]

theorem accessible_congr (h : a % 2 ^ 32 / pgsize = b % 2 ^ 32 / pgsize) :
    M.Accessible d a ↔ M.Accessible d b := by
  rw [Accessible, h, Accessible]

theorem Accessible.hasTable (h : M.Accessible d a) : M.HasTable d a := by
  obtain ⟨t, ht⟩ := exists_table h.1
  rw [HasTable, ht]
  rfl

end Address

/-! ## One page -/

/-- The directory is the same after a store to a page that is not part of it. -/
structure SameDir (M M' : Mem) (d : ℕ) : Prop where
  pte : ∀ v < 2 ^ 20, M'.pte d v = M.pte d v
  table : ∀ j, M'.table d j = M.table d j

namespace SameDir

variable (h : SameDir M M' d)

include h

theorem pte_mod (a : ℕ) : M'.pte d (a % 2 ^ 32 / pgsize) = M.pte d (a % 2 ^ 32 / pgsize) :=
  h.pte _ (page_lt (Nat.mod_lt _ (by decide)))

theorem accessible : M'.Accessible d a ↔ M.Accessible d a := by
  rw [Accessible, h.pte_mod, Accessible]

theorem hasTable : M'.HasTable d a ↔ M.HasTable d a := by
  rw [HasTable, h.table, HasTable]

theorem locate : M'.locate d a = M.locate d a := by
  rw [Mem.locate, h.pte_mod, Mem.locate]

theorem apart (hM : M.Apart d) : M'.Apart d where
  inj a b ha hb he := by
    rw [h.locate, h.locate] at he
    exact hM.inj a b (h.accessible.mp ha) (h.accessible.mp hb) he
  node a ha := by
    rw [h.locate, nodes_congr fun j _ => h.table j]
    exact hM.node a (h.accessible.mp ha)
  low a ha := by
    rw [h.locate]
    exact hM.low a (h.accessible.mp ha)

end SameDir

theorem Apart.write (hM : M.Apart d) (ha : M.Accessible d a) (off : ℕ) (bs : List UInt8) :
    SameDir M (M.write (M.locate d a).1 off bs) d := by
  have hpage : ∀ g ∈ M.nodes d, (M.write (M.locate d a).1 off bs).page g = M.page g := fun g hg =>
    page_setPage_of_ne fun he => hM.node a ha (he ▸ hg)
  exact ⟨fun v hv => pte_congr hpage hv, fun j => table_congr (hpage d root_mem) j⟩

theorem byteAt_write {f off : ℕ} {bs : List UInt8} (hoff : off + bs.length ≤ pgsize) (q : ℕ × ℕ) :
    (M.write f off bs).byteAt q =
      if q.1 = f ∧ off ≤ q.2 ∧ q.2 < off + bs.length then bs[q.2 - off]?.getD 0 else M.byteAt q := by
  obtain ⟨g, j⟩ := q
  rw [byteAt, byteAt, Mem.write]
  by_cases hg : g = f
  · subst hg
    rw [page_setPage_same]
    by_cases hj : off ≤ j ∧ j < off + bs.length
    · rw [if_pos ⟨rfl, hj⟩, Bytes.byte_copy_of_mem (by omega) hj.1 hj.2]
    · rw [if_neg fun h => hj h.2, Bytes.byte_copy_of_notMem (by omega)]
  · rw [page_setPage_of_ne hg, if_neg fun h => hg h.1]

/-! ## The loop -/

/-- What `copyout` has done if it has returned `done`. -/
structure CopiedOut (M : Mem) (d va : ℕ) (p : List UInt8) (done : Bool) (M' : Mem) : Prop where
  result : done = true ↔ ∀ i < p.length, M.Accessible d (va + i)
  bytes : done = true → ∀ i < p.length, M'.byteAt (M.locate d (va + i)) = p[i]?.getD 0
  frame : ∀ q : ℕ × ℕ, (∀ i < p.length, M.Accessible d (va + i) → q ≠ M.locate d (va + i)) →
    M'.byteAt q = M.byteAt q

theorem copiedOut_nil : CopiedOut M d va [] true M where
  result := iff_of_true rfl fun i hi => absurd hi (Nat.not_lt_zero i)
  bytes _ i hi := absurd hi (Nat.not_lt_zero i)
  frame _ _ := rfl

section Loop

variable (hva : va < 2 ^ 32)

include hva

theorem first_page (hi : i < pgsize - va % pgsize) :
    (va + i) % 2 ^ 32 = va + i ∧ (va + i) / pgsize = va / pgsize ∧ (va + i) % pgsize = va % pgsize + i := by
  simp only [pgsize] at *
  omega

theorem accessible_first (hi : i < pgsize - va % pgsize) :
    M.Accessible d (va + i) ↔ M.Accessible d va := by
  obtain ⟨hmod, hdiv, -⟩ := first_page hva hi
  refine accessible_congr ?_
  rw [hmod, hdiv, Nat.mod_eq_of_lt hva]

theorem locate_first (hi : i < pgsize - va % pgsize) :
    M.locate d (va + i) = ((M.locate d va).1, va % pgsize + i) := by
  obtain ⟨hmod, hdiv, hoff⟩ := first_page hva hi
  rw [locate, locate, hmod, hdiv, hoff, Nat.mod_eq_of_lt hva]

end Loop

theorem next_page (va : ℕ) :
    (va / pgsize * pgsize + pgsize) % 2 ^ 32 = (va + (pgsize - va % pgsize)) % 2 ^ 32 := by
  congr 1
  simp only [pgsize]
  omega

theorem add_next {va' : ℕ} (h : va' = (va + n) % 2 ^ 32) :
    (va' + i) % 2 ^ 32 = (va + (n + i)) % 2 ^ 32 := by
  rw [h, Nat.mod_add_mod, add_assoc]

section Step

variable (hM : M.Apart d) (hva : va < 2 ^ 32) (hacc : M.Accessible d va)

include hM hva hacc

omit hva in
theorem rest_page (p : List UInt8) (i : ℕ) :
    ((M.write (M.locate d va).1 (va % pgsize) p).Accessible d
        ((va / pgsize * pgsize + pgsize) % 2 ^ 32 + i) ↔
      M.Accessible d (va + (pgsize - va % pgsize + i))) ∧
    ((M.write (M.locate d va).1 (va % pgsize) p).HasTable d
        ((va / pgsize * pgsize + pgsize) % 2 ^ 32 + i) ↔
      M.HasTable d (va + (pgsize - va % pgsize + i))) ∧
    (M.write (M.locate d va).1 (va % pgsize) p).locate d ((va / pgsize * pgsize + pgsize) % 2 ^ 32 + i) =
      M.locate d (va + (pgsize - va % pgsize + i)) := by
  have hsame := hM.write hacc (va % pgsize) p
  have hnext := add_next (i := i) (next_page va)
  rw [hsame.accessible, hsame.hasTable, hsame.locate, accessible_of_mod hnext, hasTable_of_mod hnext,
    locate_of_mod hnext]
  exact ⟨Iff.rfl, Iff.rfl, rfl⟩

theorem CopiedOut.cons (hlen : p.length ≤ 2 ^ 32) {done : Bool}
    (h : CopiedOut (M.write (M.locate d va).1 (va % pgsize) (p.take (pgsize - va % pgsize))) d
      ((va / pgsize * pgsize + pgsize) % 2 ^ 32) (p.drop (pgsize - va % pgsize)) done M') :
    CopiedOut M d va p done M' := by
  have hrest := rest_page hM hacc (p.take (pgsize - va % pgsize))
  have hoff : va % pgsize < pgsize := Nat.mod_lt _ (by decide)
  have hfirst : ∀ {i}, i < pgsize - va % pgsize → M.Accessible d (va + i) := fun hi =>
    (accessible_first hva hi).mpr hacc
  have htake : va % pgsize + (p.take (pgsize - va % pgsize)).length ≤ pgsize := by
    rw [length_take]
    omega
  have hbyte := byteAt_write (M := M) (f := (M.locate d va).1) htake
  have hdrop : (p.drop (pgsize - va % pgsize)).length = p.length - (pgsize - va % pgsize) :=
    length_drop
  refine ⟨?_, fun hdone i hi => ?_, fun q hq => ?_⟩
  · rw [h.result, hdrop]
    constructor
    · intro hall i hi
      rcases Nat.lt_or_ge i (pgsize - va % pgsize) with hin | hin
      · exact hfirst hin
      · have := (hrest _).1.mp (hall (i - (pgsize - va % pgsize)) (by omega))
        rwa [Nat.add_sub_cancel' hin] at this
    · exact fun hall i hi => (hrest i).1.mpr (hall _ (by omega))
  · rcases Nat.lt_or_ge i (pgsize - va % pgsize) with hin | hin
    · rw [h.frame, hbyte, locate_first hva hin, if_pos ⟨rfl, Nat.le_add_right _ _, by
        rw [length_take]
        exact Nat.add_lt_add_left (lt_min hin hi) _⟩]
      · simp only [Nat.add_sub_cancel_left]
        rw [getElem?_take_of_lt hin]
      · -- a later part of the range is elsewhere, as the range is no longer than the memory
        intro k hk hacck he
        rw [hdrop] at hk
        rw [(hrest k).2.2] at he
        have := hM.inj _ _ (hfirst hin) ((hrest k).1.mp hacck) he
        omega
    · have := h.bytes hdone (i - (pgsize - va % pgsize)) (by omega)
      rwa [(hrest _).2.2, Nat.add_sub_cancel' hin, getElem?_drop, Nat.add_sub_cancel' hin] at this
  · rw [h.frame q, hbyte, if_neg]
    · rintro ⟨hq1, hq2, hq3⟩
      rw [length_take] at hq3
      refine hq (q.2 - va % pgsize) (by omega) (hfirst (by omega)) ?_
      rw [locate_first hva (by omega), Nat.add_sub_cancel' hq2, ← hq1]
    · intro k hk hacck
      rw [hdrop] at hk
      rw [(hrest k).2.2]
      exact hq _ (by omega) ((hrest k).1.mp hacck)

theorem walks_cons_iff (p : List UInt8) :
    M.Walks d va n ↔
      (M.write (M.locate d va).1 (va % pgsize) p).Walks d ((va / pgsize * pgsize + pgsize) % 2 ^ 32)
        (n - (pgsize - va % pgsize)) := by
  have hrest := rest_page hM hacc p
  constructor
  · intro h i hi hbefore
    refine (hrest i).2.1.mpr (h _ (by omega) fun j hj => ?_)
    rcases Nat.lt_or_ge j (pgsize - va % pgsize) with hjn | hjn
    · exact (accessible_first hva hjn).mpr hacc
    · have := (hrest _).1.mp (hbefore (j - (pgsize - va % pgsize)) (by omega))
      rwa [Nat.add_sub_cancel' hjn] at this
  · intro h i hi hbefore
    rcases Nat.lt_or_ge i (pgsize - va % pgsize) with hin | hin
    · exact ((accessible_first hva hin).mpr hacc).hasTable
    · have := (hrest _).2.1.mp (h (i - (pgsize - va % pgsize)) (by omega) fun j hj =>
        (hrest j).1.mpr (hbefore _ (by omega)))
      rwa [Nat.add_sub_cancel' hin] at this

end Step

theorem copyoutFrom_spec (hM : M.Apart d) (hva : va < 2 ^ 32) (hlen : p.length ≤ 2 ^ 32)
    (hfuel : p.length ≤ fuel) (hw : M.Walks d va p.length) :
    ∃ done stores M', copyoutFrom d fuel va p M = .ok (done, stores, M') ∧ CopiedOut M d va p done M' := by
  induction fuel generalizing va p M with
  | zero =>
    obtain rfl := eq_nil_of_length_eq_zero (Nat.le_zero.mp hfuel)
    exact ⟨true, [], M, rfl, copiedOut_nil⟩
  | succ fuel ih =>
    by_cases hp : p = []
    · subst hp
      exact ⟨true, [], M, copyoutFrom_nil, copiedOut_nil⟩
    have hpos := length_pos_iff.mpr hp
    have hmod : va % 2 ^ 32 = va := Nat.mod_eq_of_lt hva
    by_cases hacc : M.Accessible d va
    · have hpage : (M.locate d va).1 = pageOf (M.pte d (va / pgsize)) := by rw [locate, hmod]
      have hoff : va % pgsize < pgsize := Nat.mod_lt _ (by decide)
      obtain ⟨done, stores, M', hrun, hres⟩ :=
        ih ((hM.write hacc (va % pgsize) (p.take (pgsize - va % pgsize))).apart hM)
          (show (va / pgsize * pgsize + pgsize) % 2 ^ 32 < 2 ^ 32 from Nat.mod_lt _ (by decide))
          (p := p.drop (pgsize - va % pgsize))
          (by rw [length_drop]; omega) (by rw [length_drop]; omega)
          (by rw [length_drop]; exact (walks_cons_iff hM hva hacc _).mp hw)
      refine ⟨done, ⟨va, M.pte d (va / pgsize), p.take (pgsize - va % pgsize)⟩ :: stores, M', ?_,
        hres.cons hM hva hacc hlen⟩
      rw [Accessible, hmod] at hacc
      rw [copyoutFrom_user hva hp hacc, ← hpage, hrun]
      rfl
    · have ht : M.HasTable d va := hw 0 hpos fun j hj => absurd hj (Nat.not_lt_zero j)
      rw [HasTable, hmod] at ht
      refine ⟨false, [], M, copyoutFrom_refused hva hp ht ?_, ?_, ?_, fun _ _ => rfl⟩
      · rw [Accessible, hmod] at hacc
        exact hacc
      · exact iff_of_false Bool.false_ne_true fun h => hacc (h 0 hpos)
      · exact fun h => absurd h Bool.false_ne_true

theorem walks_of_copyoutFrom (hM : M.Apart d) (hva : va < 2 ^ 32) (hfuel : p.length ≤ fuel)
    {r : Bool × List Store × Mem} (hrun : copyoutFrom d fuel va p M = .ok r) :
    M.Walks d va p.length := by
  induction fuel generalizing va p M r with
  | zero =>
    rw [Nat.le_zero.mp hfuel]
    exact fun i hi => absurd hi (Nat.not_lt_zero i)
  | succ fuel ih =>
    by_cases hp : p = []
    · subst hp
      exact fun i hi => absurd hi (Nat.not_lt_zero i)
    have hpos := length_pos_iff.mpr hp
    have hmod : va % 2 ^ 32 = va := Nat.mod_eq_of_lt hva
    by_cases hacc : M.Accessible d va
    · rw [walks_cons_iff hM hva hacc (p.take (pgsize - va % pgsize)), ← length_drop]
      have hpage : (M.locate d va).1 = pageOf (M.pte d (va / pgsize)) := by rw [locate, hmod]
      have hoff : va % pgsize < pgsize := Nat.mod_lt _ (by decide)
      have hacc' := hacc
      rw [Accessible, hmod] at hacc'
      rw [copyoutFrom_user hva hp hacc', ← hpage] at hrun
      rcases hnext : copyoutFrom d fuel ((va / pgsize * pgsize + pgsize) % 2 ^ 32)
          (p.drop (pgsize - va % pgsize))
          (M.write (M.locate d va).1 (va % pgsize) (p.take (pgsize - va % pgsize))) with e | r'
      · rw [hnext] at hrun
        cases hrun
      · exact ih ((hM.write hacc _ _).apart hM) (Nat.mod_lt _ (by decide))
          (by rw [length_drop]; omega) hnext
    · -- the first page is the one where the loop stops
      intro i hi hbefore
      rcases Nat.eq_zero_or_pos i with rfl | hpos'
      · rw [add_zero, HasTable, hmod, ← Option.ne_none_iff_isSome]
        intro hnone
        rw [copyoutFrom_noTable hva hp hnone] at hrun
        cases hrun
      · exact absurd (hbefore 0 hpos') hacc

/-! ## `copyout` -/

/-- `copyout` returns; it returns `0` if and only if user code may use all pages of the range, and
then the bytes of the range are those of the buffer; and whatever it returns, it has changed no byte
but those of the range that user code may use. -/
def CopyoutExact (M : Mem) (d va : ℕ) (p : List UInt8) : Prop :=
  ∃ done stores M', M.copyout d va p = .ok (done, stores, M') ∧ CopiedOut M d va p done M'

/-- **`copyout` is safe and exact if and only if it does not come to an address without a page
table.** -/
theorem copyout_exact_iff (M : Mem) (d va : ℕ) (p : List UInt8) (hM : M.Apart d) (hva : va < 2 ^ 32)
    (hlen : p.length < 2 ^ 32) : CopyoutExact M d va p ↔ M.Walks d va p.length := by
  constructor
  · rintro ⟨done, stores, M', hrun, -⟩
    exact walks_of_copyoutFrom hM hva le_rfl hrun
  · exact copyoutFrom_spec hM hva hlen.le le_rfl

theorem Sound.apart {L : Layout} (hs : Sound L M d)
    (hk : ∀ v < 2 ^ 20, userPages ≤ v → user (M.pte d v) = false) : M.Apart d := by
  have hlow : ∀ a, M.Accessible d a → a % 2 ^ 32 / pgsize < userPages := fun a ha => by
    by_contra hge
    have := hk _ (page_lt (Nat.mod_lt _ (by decide))) (not_lt.mp hge)
    rw [ha.2] at this
    cases this
  refine ⟨?_, fun a ha => (hs.notMem_of_present (hlow a ha) ha.1).2, ?_⟩
  · intro a b ha hb he
    obtain ⟨hpage, hoff⟩ := Prod.mk.inj he
    have hv := pageOf_inj (Multiset.nodup_add.mp hs.held_nodup).2.1 (hlow a ha) (hlow b hb) ha.1 hb.1 hpage
    simp only [pgsize] at hv hoff
    omega
  · intro a ha
    exact (hs.takes_held (Multiset.mem_add.mpr (.inr (mem_pages.mpr ⟨_, hlow a ha, ha.1, rfl⟩)))).2

/-- In an empty directory there is no page table for any address. -/
theorem copyout_follows_null :
    (bareMem []).Apart 1000 ∧ ¬ CopyoutExact (bareMem []) 1000 0 [1] := by
  have hno : ∀ a, ¬ (bareMem []).Accessible 1000 a := fun a ha => by
    have := ha.1
    rw [bareMem_absent] at this
    cases this
  refine ⟨⟨fun a _ ha => absurd ha (hno a), fun a ha => absurd ha (hno a), fun a ha => absurd ha (hno a)⟩, ?_⟩
  rintro ⟨done, stores, M', hrun, -⟩
  have ht : (bareMem []).table 1000 (0 / pgsize / nptentries) = none := table_zero
  rw [copyout, length_singleton, copyoutFrom_noTable (by decide) (cons_ne_nil _ _) ht] at hrun
  cases hrun

/-- Two bytes go to a process of one page. -/
theorem copyout_exact_page :
    ∃ M : Mem, M.Apart 1000 ∧ M.Accessible 1000 5 ∧ CopyoutExact M 1000 4 [104, 105] := by
  have hs : Sound someLayout (bareMem [1001, 1002]) 1000 := bareMem_sound (by decide) (by decide)
  rcases addPage_spec (v := 0) hs (by decide) (bareMem_absent _ 0) (show pteW ||| pteU < pgsize by decide)
    rfl Bytes.zero with ⟨-, h, -⟩ | ⟨M, -, hM, -⟩
  · exact absurd h (cons_ne_nil _ _)
  have hacc : ∀ a < pgsize, M.Accessible 1000 a := fun a ha => by
    have hzero : a % 2 ^ 32 / pgsize = 0 := by
      simp only [pgsize] at *
      omega
    obtain ⟨f, -, hpte, -⟩ := hM.filled 0 rfl
    rw [Accessible, hzero, hpte]
    exact ⟨present_entry, by rw [user_entry]; decide⟩
  have hapart : M.Apart 1000 := (hM.sound hs).apart fun v hv hk => by
    rw [hM.pte v hv fun he => absurd hk (by rw [he]; decide), bareMem, pte_zero]
    rfl
  refine ⟨M, hapart, hacc 5 (by decide), (copyout_exact_iff M 1000 4 [104, 105] hapart (by decide)
    (by decide)).mpr fun i hi _ => (hacc (4 + i) ?_).hasTable⟩
  have hi' : i < 2 := hi
  simp only [pgsize]
  omega

end Xv6.Vm.Mem
