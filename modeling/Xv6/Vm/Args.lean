import Xv6.Vm.Load

/-!
# The stack of a new program

`exec` puts two pages above the program, takes the lower one away from the user (`clearpteu`), and
pushes the arguments to the other one.  Only `copyout` looks whether an address is that of the
stack, and it looks at one page after the other.

* `copyout_stack`, `copyout_refused`, `copyout_noTable`, `copyout_below` --- what `copyout` does,
  by the page where it starts.
-/

namespace Xv6.Vm

open List

/-- A stack has been allocated: a guard page and the page of the stack. -/
structure Room.Stack (s : Room) : Prop where
  sane : s.Sane
  two : 2 ≤ s.pages
  round : s.sz = s.pages * pgsize

namespace Mem

variable {L : Layout} {M₀ M M' : Mem} {d k m n u v f va sp fuel : ℕ} {s : Room} {perm : ℕ → ℕ}
  {lost : Multiset ℕ} {p : List UInt8}

/-! ## `clearpteu` -/

/-- The permissions when the guard page has been taken away from the user; there are `e` pages. -/
def stackPerm (e v : ℕ) : ℕ := if v + 2 = e then pteW else pteW ||| pteU

theorem Room.Stack.guard_lt (hst : s.Stack) : s.pages - 2 < s.mapped := by
  have := hst.two
  rcases hst.sane.whole with h | h <;> omega

theorem entry_sub_user : entry f (pteW ||| pteU) - pteU = entry f pteW := by
  rw [entry_eq (by decide), entry_eq (by decide)]
  simp [pteW, pteU, pteP]

/-- **`clearpteu` makes the guard page.** -/
theorem clearpteu_ok (h : Loading L d M₀ userPerm M s lost) (hst : s.Stack) :
    ∃ M', M.clearpteu d (s.sz - 2 * pgsize) = .ok M' ∧
      Loading L d M₀ (stackPerm s.pages) M' s lost ∧
      ∀ a, a / pgsize < s.mapped → M'.userByte d a = M.userByte d a := by
  have hg := Room.Stack.guard_lt hst
  have hgu : s.pages - 2 < userPages := hg.trans_le h.le
  have haddr : s.sz - 2 * pgsize = (s.pages - 2) * pgsize := by
    rw [hst.round, Nat.sub_mul]
  obtain ⟨f, hf⟩ := h.mapped _ hg
  rw [userPerm] at hf
  obtain ⟨t, ht⟩ := exists_table (h.present hg)
  have hx : entry f pteW < 2 ^ 32 := by
    refine entry_lt ?_ (by decide)
    have hal := h.sound.takes_held (Multiset.mem_add.mpr (.inr (h.mem_pages hg)))
    rw [hf, pageOf_entry (by decide)] at hal
    exact hal.lt
  have hn := h.sound.nodes_nodup
  have hrun : M.clearpteu d (s.sz - 2 * pgsize) =
      .ok (M.setWord t ((s.pages - 2) % nptentries) (entry f pteW)) := by
    rw [clearpteu, haddr, walk_eq (userPages_lt hgu), ht, Option.map_some]
    simp only
    rw [← pte_of_table ht, hf, if_pos (by rw [user_entry]; decide), entry_sub_user]
  have hpte : ∀ u < 2 ^ 20, (M.setWord t ((s.pages - 2) % nptentries) (entry f pteW)).pte d u =
      if u = s.pages - 2 then entry f pteW else M.pte d u :=
    fun u hu => pte_setWord hn (userPages_lt hgu) ht hx hu
  have htable : ∀ j, (M.setWord t ((s.pages - 2) % nptentries) (entry f pteW)).table d j = M.table d j :=
    fun j => table_setWord hn (userPages_lt hgu) ht
  have hpage : ∀ u < 2 ^ 20, pageOf ((M.setWord t ((s.pages - 2) % nptentries) (entry f pteW)).pte d u) =
      pageOf (M.pte d u) := by
    intro u hu
    rw [hpte u hu]
    split
    · rename_i he
      rw [he, hf, pageOf_entry (by decide), pageOf_entry (by decide)]
    · rfl
  have hpages : (M.setWord t ((s.pages - 2) % nptentries) (entry f pteW)).pages d = M.pages d := by
    refine pages_congr_named fun u hu => ?_
    rw [hpte u (userPages_lt hu)]
    split
    · rename_i he
      rw [he, hf, named_entry (by decide), named_entry (by decide)]
    · rfl
  have hheld : (M.setWord t ((s.pages - 2) % nptentries) (entry f pteW)).held d = M.held d := by
    rw [held, held, nodes_congr fun j _ => htable j, hpages]
  have htf : t ∈ M₀.free :=
    h.toOwned.mem_free (Multiset.mem_add.mpr (.inr (Multiset.mem_add.mpr (.inl
      (table_mem (userPages_lt hgu) ht)))))
  refine ⟨_, hrun, ⟨⟨?_, ?_, ?_⟩, ⟨h.le, ?_, ?_, ?_, ?_⟩, h.sane, h.free⟩, ?_⟩
  · exact h.sound.of_eq (by rw [hheld]; rfl)
  · rw [hheld]
    exact h.total
  · intro g hgf
    rw [page_setWord_of_ne, h.page g hgf]
    rintro rfl
    exact hgf htf
  · intro v hv
    rw [hpte v (userPages_lt (hv.trans_le h.le)), stackPerm]
    have htwo := hst.two
    by_cases he : v = s.pages - 2
    · rw [if_pos he, if_pos (by omega)]
      exact ⟨f, rfl⟩
    · rw [if_neg he, if_neg (by omega)]
      exact h.mapped v hv
  · intro v hv hm
    rw [hpte v (userPages_lt hv), if_neg (by omega)]
    exact h.absent v hv hm
  · intro v hv hu
    rw [hpte v hv, if_neg (by omega)]
    exact h.kernel v hv hu
  · intro j
    rw [htable]
    exact h.tables j
  · intro a ha
    have hlt := userPages_lt (ha.trans_le h.le)
    rw [userByte, userByte, hpage _ hlt, page_setWord_of_ne]
    intro he
    have hnot := (h.sound.notMem_of_mapped (h.mem_pages ha)).2
    rw [he] at hnot
    exact hnot (table_mem (userPages_lt hgu) ht)

/-! ## `copyout` -/

theorem pgrounddown_eq : pgrounddown va = va / pgsize * pgsize := rfl

theorem page_lt (hva : va < 2 ^ 32) : va / pgsize < 2 ^ 20 := by
  simp only [pgsize]
  omega

section Copyout

variable (hva : va < 2 ^ 32) (hp : p ≠ [])

include hva hp

theorem copyoutFrom_noTable (ht : M.table d (va / pgsize / nptentries) = none) :
    copyoutFrom d (fuel + 1) va p M = .error .null := by
  rw [copyoutFrom, if_neg hp, uva2ka, pgrounddown_eq, walk_eq (page_lt hva), ht]
  rfl

theorem copyoutFrom_refused (ht : (M.table d (va / pgsize / nptentries)).isSome)
    (hno : ¬ (present (M.pte d (va / pgsize)) = true ∧ user (M.pte d (va / pgsize)) = true)) :
    copyoutFrom d (fuel + 1) va p M = .ok (false, [], M) := by
  obtain ⟨t, ht⟩ := Option.isSome_iff_exists.mp ht
  rw [copyoutFrom, if_neg hp, uva2ka, pgrounddown_eq, walk_eq (page_lt hva), ht, Option.map_some]
  simp only
  rw [← pte_of_table ht, if_neg hno]
  rfl

theorem copyoutFrom_user (hyes : present (M.pte d (va / pgsize)) = true ∧
      user (M.pte d (va / pgsize)) = true) :
    copyoutFrom d (fuel + 1) va p M = (do
      let (done, stores, M') ← copyoutFrom d fuel ((va / pgsize * pgsize + pgsize) % 2 ^ 32)
        (p.drop (pgsize - va % pgsize))
        (M.write (pageOf (M.pte d (va / pgsize))) (va % pgsize) (p.take (pgsize - va % pgsize)))
      pure (done, ⟨va, M.pte d (va / pgsize), p.take (pgsize - va % pgsize)⟩ :: stores, M')) := by
  obtain ⟨t, ht⟩ := exists_table hyes.1
  rw [copyoutFrom, if_neg hp, uva2ka, pgrounddown_eq, walk_eq (page_lt hva), ht, Option.map_some]
  simp only
  rw [← pte_of_table ht, if_pos hyes]
  rfl

end Copyout

theorem copyoutFrom_nil : copyoutFrom d fuel va [] M = .ok (true, [], M) := by
  cases fuel with
  | zero => rfl
  | succ fuel => exact if_pos rfl

/-- The store is in the page of the stack of an image of size `sz`. -/
def InStack (sz : ℕ) (st : Store) : Prop := sz - pgsize ≤ st.va ∧ st.va + st.bytes.length ≤ sz

section Stack

variable (h : Loading L d M₀ (stackPerm s.pages) M s lost) (hst : s.Stack)

include h

theorem user_of_mapped (hv : v < s.mapped) (hg : v + 2 ≠ s.pages) :
    present (M.pte d v) = true ∧ user (M.pte d v) = true := by
  refine ⟨h.present hv, ?_⟩
  rw [h.user hv, stackPerm, if_neg hg]
  decide

theorem not_user_guard (hv : v < s.mapped) (hg : v + 2 = s.pages) :
    ¬ (present (M.pte d v) = true ∧ user (M.pte d v) = true) := by
  rintro ⟨-, hu⟩
  rw [h.user hv, stackPerm, if_pos hg] at hu
  exact absurd hu (by decide)

include hst

omit h in
theorem mapped_eq_pages (ht : Room.TableAt s.mapped (v / nptentries)) (hv : v + 1 = s.pages) :
    s.mapped = s.pages := by
  rcases hst.sane.whole with hw | ⟨hm, hmod, -⟩
  · exact hw
  · have hlt : v < userPages := by
      have := pagesBetween_le hst.sane.le
      change s.pages ≤ _ at this
      omega
    rcases ht with ht | ht
    · simp only [nptentries] at hmod ht
      omega
    · exact absurd ht (not_kernelTable hlt)

omit hst in
theorem copyout_stack (hp : p ≠ []) (hv : va / pgsize + 1 = s.pages) (hm : s.mapped = s.pages)
    (hfit : va % pgsize + p.length ≤ pgsize) :
    M.copyout d va p = .ok (true, [⟨va, M.pte d (va / pgsize), p⟩],
      M.write (pageOf (M.pte d (va / pgsize))) (va % pgsize) p) := by
  obtain ⟨k, hk⟩ := Nat.exists_eq_add_one.mpr (length_pos_iff.mpr hp)
  have hva : va < 2 ^ 32 := by
    have := h.le
    simp only [userPages, kernbase, pgsize] at *
    omega
  rw [copyout, hk, copyoutFrom_user hva hp (user_of_mapped h (by omega) (by omega)),
    take_of_length_le (by omega), drop_of_length_le (by omega), copyoutFrom_nil]
  rfl

omit hst in
theorem copyout_refused (hva : va < 2 ^ 32) (hp : p ≠ []) (hv : s.pages ≤ va / pgsize + 2)
    (hne : va / pgsize + 1 ≠ s.pages) (ht : PushWalks s va) :
    M.copyout d va p = .ok (false, [], M) := by
  obtain ⟨k, hk⟩ := Nat.exists_eq_add_one.mpr (length_pos_iff.mpr hp)
  rw [copyout, hk]
  refine copyoutFrom_refused hva hp ((h.tables _).mpr ht) ?_
  rcases Nat.lt_or_ge (va / pgsize) s.mapped with hlt | hge
  · have := h.sane.mapped_le
    exact not_user_guard h hlt (by omega)
  · exact h.not_user (page_lt hva) hge

theorem copyoutFrom_below (hp : p ≠ []) (hfuel : p.length ≤ fuel) (hv : va / pgsize + 2 ≤ s.pages)
    (hend : (s.pages - 2) * pgsize < va + p.length) :
    ∃ stores M', copyoutFrom d fuel va p M = .ok (false, stores, M') ∧
      Loading L d M₀ (stackPerm s.pages) M' s lost := by
  have hle : s.pages ≤ userPages := pagesBetween_le hst.sane.le
  have hva : va < 2 ^ 32 := by
    simp only [userPages, kernbase, pgsize] at *
    omega
  induction fuel generalizing va p M with
  | zero => exact absurd (eq_nil_of_length_eq_zero (Nat.le_zero.mp hfuel)) hp
  | succ fuel ih =>
    have hmapped : va / pgsize < s.mapped := (by omega : _ ≤ s.pages - 2).trans_lt (Room.Stack.guard_lt hst)
    rcases eq_or_lt_of_le hv with hg | hlt
    · refine ⟨[], M, copyoutFrom_refused hva hp ((h.tables _).mpr ?_) (not_user_guard h hmapped hg), h⟩
      left
      simp only [nptentries]
      omega
    · have hnext : (va / pgsize * pgsize + pgsize) % 2 ^ 32 = (va / pgsize + 1) * pgsize := by
        simp only [userPages, kernbase, pgsize] at *
        omega
      have hlen : pgsize - va % pgsize < p.length := by
        simp only [pgsize] at *
        omega
      rw [copyoutFrom_user hva hp (user_of_mapped h hmapped (by omega)), hnext]
      obtain ⟨stores, M', hrun, hM'⟩ := ih
        (p := p.drop (pgsize - va % pgsize))
        (h.setPage hmapped ((M.page (pageOf (M.pte d (va / pgsize)))).copy (va % pgsize)
          (p.take (pgsize - va % pgsize))))
        (ne_nil_of_length_pos (by rw [length_drop]; omega))
        (by
          rw [length_drop]
          simp only [pgsize] at *
          omega)
        (show (va / pgsize + 1) * pgsize / pgsize + 2 ≤ s.pages by
          rw [Nat.mul_div_cancel _ (by decide)]
          omega)
        (by
          rw [length_drop]
          simp only [pgsize] at *
          omega)
        (hnext ▸ Nat.mod_lt _ (by decide))
      refine ⟨⟨va, M.pte d (va / pgsize), p.take (pgsize - va % pgsize)⟩ :: stores, M', ?_, hM'⟩
      rw [write, hrun, ok_bind]
      rfl

/-! ## One push -/

omit h in
theorem pushAddr_cases (hsp : (s.pages - 1) * pgsize ≤ sp) (hsp' : sp ≤ s.sz) (hpos : 0 < n)
    (hn : n ≤ 2 ^ 31) :
    pushAddr sp n < 2 ^ 32 ∧ pushAddr sp n % 4 = 0 ∧
    ((pushAddr sp n / pgsize + 1 ≤ s.pages ∧ pushAddr sp n + n ≤ sp ∧ sp < pushAddr sp n + n + 4) ∨
      userPages ≤ pushAddr sp n / pgsize) := by
  have hle := hst.sane.le
  have hround := hst.round
  have htwo := hst.two
  simp only [pushAddr, userPages, kernbase, pgsize] at *
  omega

/-- **One push**: if there is a page table then `copyout` returns, and it succeeds if and only if
the address is in the page of the stack. -/
theorem push_ok (hsp : (s.pages - 1) * pgsize ≤ sp) (hsp' : sp ≤ s.sz) (hp : p ≠ [])
    (hn : p.length ≤ 2 ^ 31) (ht : PushWalks s (pushAddr sp p.length)) :
    ∃ stores M', M.copyout d (pushAddr sp p.length) p =
        .ok (decide (pushAddr sp p.length / pgsize + 1 = s.pages), stores, M') ∧
      Loading L d M₀ (stackPerm s.pages) M' s lost ∧
      (s.pages ≤ pushAddr sp p.length / pgsize + 2 → ∀ st ∈ stores, InStack s.sz st) ∧
      (pushAddr sp p.length / pgsize + 1 = s.pages → s.mapped = s.pages ∧
        M' = M.write (pageOf (M.pte d (pushAddr sp p.length / pgsize)))
          (pushAddr sp p.length % pgsize) p) := by
  obtain ⟨hva, -, hcases⟩ := pushAddr_cases hst hsp hsp' (length_pos_iff.mpr hp) hn
  have hround := hst.round
  set va := pushAddr sp p.length with hdef
  by_cases hv : va / pgsize + 1 = s.pages
  · have hm := mapped_eq_pages hst ht hv
    have hlt : va / pgsize < s.mapped := by omega
    obtain ⟨-, hfit, -⟩ : va / pgsize + 1 ≤ s.pages ∧ va + p.length ≤ sp ∧ sp < va + p.length + 4 := by
      refine hcases.resolve_right fun hge => ?_
      have := h.le
      omega
    have hin : (s.pages - 1) * pgsize ≤ va ∧ va + p.length ≤ s.pages * pgsize := by
      simp only [pgsize] at *
      omega
    refine ⟨[⟨va, M.pte d (va / pgsize), p⟩], _, ?_, h.setPage hlt _, ?_, fun _ => ⟨hm, rfl⟩⟩
    · rw [copyout_stack h hp hv hm (by simp only [pgsize] at *; omega), decide_eq_true hv]
      rfl
    · intro _ st hmem
      obtain rfl := mem_singleton.mp hmem
      rw [InStack, hround]
      simp only [pgsize] at *
      omega
  · rw [decide_eq_false hv]
    rcases Nat.lt_or_ge (va / pgsize + 2) s.pages with hlow | hhigh
    · obtain ⟨stores, M', hrun, hM'⟩ := copyoutFrom_below h hst hp le_rfl hlow.le
        (by
          have := hcases.resolve_right fun hge => by
            have := pagesBetween_le hst.sane.le
            change s.pages ≤ _ at this
            omega
          simp only [pgsize] at *
          omega)
      exact ⟨stores, M', hrun, hM', fun hge => absurd hge (not_le.mpr hlow), fun he => absurd he hv⟩
    · exact ⟨[], M, copyout_refused h hva hp hhigh hv ht, h, fun _ => forall_mem_nil _,
        fun he => absurd he hv⟩

section

variable (hva : va < 2 ^ 32) (hp : p ≠ [])
include hva hp

omit hst in
theorem copyout_noTable (ht : ¬ PushWalks s va) : M.copyout d va p = .error .null := by
  obtain ⟨k, hk⟩ := Nat.exists_eq_add_one.mpr (length_pos_iff.mpr hp)
  rw [copyout, hk]
  refine copyoutFrom_noTable hva hp (Option.not_isSome_iff_eq_none.mp fun hsome => ht ?_)
  exact (h.tables _).mp hsome

omit hst in
theorem pushWalks_of_copyout {r : Bool × List Store × Mem} (hrun : M.copyout d va p = .ok r) :
    PushWalks s va := by
  by_contra hno
  rw [copyout_noTable h hva hp hno] at hrun
  cases hrun

theorem pushFits_of_copyout {r : Bool × List Store × Mem} (hrun : M.copyout d va p = .ok r)
    (hin : ∀ st ∈ r.2.1, InStack s.sz st) : PushFits s va := by
  refine ⟨?_, pushWalks_of_copyout h hva hp hrun⟩
  by_contra hlow
  have hmapped : va / pgsize < s.mapped :=
    (by omega : _ < s.pages - 2).trans (Room.Stack.guard_lt hst)
  obtain ⟨k, hk⟩ := Nat.exists_eq_add_one.mpr (length_pos_iff.mpr hp)
  rw [copyout, hk, copyoutFrom_user hva hp (user_of_mapped h hmapped (by omega))] at hrun
  rcases hrest : copyoutFrom d k ((va / pgsize * pgsize + pgsize) % 2 ^ 32)
      (p.drop (pgsize - va % pgsize)) (M.write (pageOf (M.pte d (va / pgsize))) (va % pgsize)
        (p.take (pgsize - va % pgsize))) with _ | r₁
  · rw [hrest] at hrun
    cases hrun
  · rw [hrest] at hrun
    obtain rfl := Except.ok.inj hrun
    have hst' := hin _ mem_cons_self
    have hround := hst.round
    rw [InStack, hround] at hst'
    simp only [pgsize] at *
    omega

end

end Stack

/-! ## The strings -/

/-- The bytes at an address of the user. -/
def userBytes (M : Mem) (d a n : ℕ) : List UInt8 := (List.range n).map fun i => M.userByte d (a + i)

theorem userBytes_congr {a : ℕ} (h : ∀ i < n, M'.userByte d (a + i) = M.userByte d (a + i)) :
    M'.userBytes d a n = M.userBytes d a n :=
  map_congr_left fun i hi => h i (mem_range.mp hi)

section Push

variable (h : Loading L d M₀ perm M s lost) (hv : va / pgsize < s.mapped)
  (hfit : va % pgsize + p.length ≤ pgsize)

include h hv hfit

theorem userBytes_push :
    (M.write (pageOf (M.pte d (va / pgsize))) (va % pgsize) p).userBytes d va p.length = p := by
  refine ext_getElem (by rw [userBytes, length_map, length_range]) fun i hi hi' => ?_
  have hpage : (va + i) / pgsize = va / pgsize ∧ (va + i) % pgsize = va % pgsize + i := by
    simp only [pgsize] at *
    omega
  simp only [userBytes, getElem_map, getElem_range]
  rw [h.userByte_write hv _ (by rw [hpage.1]; exact hv), if_pos (by omega), hpage.2,
    Nat.add_sub_cancel_left, getElem?_eq_getElem hi', Option.getD_some]

omit hfit in
theorem userByte_push {x : ℕ} (hx : va + p.length ≤ x) (hxm : x / pgsize < s.mapped) :
    (M.write (pageOf (M.pte d (va / pgsize))) (va % pgsize) p).userByte d x = M.userByte d x := by
  rw [h.userByte_write hv _ hxm, if_neg]
  simp only [pgsize] at *
  omega

end Push

/-- The strings are below `hi`, one below the other, the last one at `lo`. -/
def Placed (M : Mem) (d : ℕ) : ℕ → List (List UInt8) → List ℕ → ℕ → Prop
  | hi, [], [], lo => lo = hi
  | hi, arg :: argv, a :: addrs, lo =>
    a + (arg.length + 1) ≤ hi ∧ M.userBytes d a (arg.length + 1) = arg ++ [0] ∧
      Placed M d a argv addrs lo
  | _, _, _, _ => False

section Placed

variable {hi lo : ℕ} {argv : List (List UInt8)} {addrs : List ℕ}

section

variable (h : Placed M d hi argv addrs lo)
include h

@[elab_as_elim]
theorem Placed.ind {motive : ∀ hi argv addrs, Placed M d hi argv addrs lo → Prop}
    (nil : motive lo [] [] rfl)
    (cons : ∀ {hi a arg argv addrs} (hend : a + (arg.length + 1) ≤ hi)
      (hbytes : M.userBytes d a (arg.length + 1) = arg ++ [0]) (hrest : Placed M d a argv addrs lo),
      motive a argv addrs hrest → motive hi (arg :: argv) (a :: addrs) ⟨hend, hbytes, hrest⟩) :
    motive hi argv addrs h := by
  induction argv generalizing hi addrs with
  | nil =>
    cases addrs with
    | nil =>
      cases h
      exact nil
    | cons a addrs => exact h.elim
  | cons arg argv ih =>
    cases addrs with
    | nil => exact h.elim
    | cons a addrs => exact cons h.1 h.2.1 h.2.2 (ih h.2.2)

theorem Placed.le : lo ≤ hi := by
  induction h using Placed.ind with
  | nil => exact le_rfl
  | cons hend _ _ ih => exact ih.trans ((Nat.le_add_right _ _).trans hend)

theorem Placed.length : addrs.length = argv.length := by
  induction h using Placed.ind with
  | nil => rfl
  | cons _ _ _ ih => exact congrArg (· + 1) ih

theorem Placed.congr (hx : ∀ x, lo ≤ x → x < hi → M'.userByte d x = M.userByte d x) :
    Placed M' d hi argv addrs lo := by
  induction h using Placed.ind with
  | nil => exact rfl
  | cons hend hbytes hrest ih =>
    have hle := hrest.le
    refine ⟨hend, ?_, ih fun x hlo hhi => hx x hlo (by omega)⟩
    rw [← hbytes]
    exact userBytes_congr fun i hi => hx _ (by omega) (by omega)

end

end Placed

/-- The stack pointer is aligned, and in the page of the stack or at its end. -/
structure Pointer (s : Room) (sp : ℕ) : Prop where
  aligned : sp % 4 = 0
  ge : (s.pages - 1) * pgsize ≤ sp
  le : sp ≤ s.sz

theorem Room.Stack.pointer (hst : s.Stack) : Pointer s s.sz := by
  have hround := hst.round
  have htwo := hst.two
  simp only [pgsize] at hround
  refine ⟨by omega, ?_, le_rfl⟩
  simp only [pgsize]
  omega

theorem append_zero_ne_nil {arg : List UInt8} : arg ++ [0] ≠ [] := append_ne_nil_of_right_ne_nil _ (by simp)

section Stack

variable (h : Loading L d M₀ (stackPerm s.pages) M s lost) (hst : s.Stack)

include hst

theorem Pointer.push (hsp : Pointer s sp) (hpos : 0 < n) (hn : n ≤ 2 ^ 31)
    (hv : pushAddr sp n / pgsize + 1 = s.pages) :
    Pointer s (pushAddr sp n) ∧ pushAddr sp n + n ≤ sp ∧ pushAddr sp n % pgsize + n ≤ pgsize := by
  obtain ⟨-, hal, hcases⟩ := pushAddr_cases hst hsp.ge hsp.le hpos hn
  have hle : s.pages ≤ userPages := pagesBetween_le hst.sane.le
  obtain ⟨-, hfit, -⟩ := hcases.resolve_right fun hge => by omega
  have hge := hsp.ge
  have hsz := hsp.le
  have hround := hst.round
  refine ⟨⟨hal, ?_, by omega⟩, hfit, ?_⟩
  all_goals
    simp only [pgsize] at *
    omega

include h

omit h hst in
theorem pushStrings_cons {arg : List UInt8} {argv : List (List UInt8)} {addrs : List ℕ}
    (hargc : addrs.length < maxarg) :
    pushStrings d (arg :: argv) addrs sp M =
      M.copyout d (pushAddr sp (arg.length + 1)) (arg ++ [0]) >>= fun q =>
        if q.1 then
          pushStrings d argv (addrs ++ [pushAddr sp (arg.length + 1)]) (pushAddr sp (arg.length + 1))
            q.2.2 >>= fun r => pure (r.1, q.2.1 ++ r.2.1, r.2.2)
        else pure (none, q.2.1, q.2.2) := by
  rw [pushStrings, if_neg (not_le.mpr hargc)]
  rfl

theorem pushStrings_ok (last' : ℕ → ℕ → Prop) {last : ℕ → ℕ → Prop} (hsp : Pointer s sp) {argv : List (List UInt8)} {addrs : List ℕ}
    (hlen : ∀ arg ∈ argv, arg.length < 2 ^ 31)
    (hfit : StringsFit (PushWalks s) last s argv addrs.length sp) :
    ∃ r stores M', pushStrings d argv addrs sp M = .ok (r, stores, M') ∧
      Loading L d M₀ (stackPerm s.pages) M' s lost ∧
      (StringsFit (PushFits s) last' s argv addrs.length sp → ∀ st ∈ stores, InStack s.sz st) ∧
      ∀ sp' addrs', r = some (sp', addrs') → ∃ new, addrs' = addrs ++ new ∧
        Placed M' d sp argv new sp' ∧ Pointer s sp' ∧
        (addrs.length ≤ maxarg → addrs'.length ≤ maxarg) ∧
        (∀ x, sp ≤ x → x < s.sz → M'.userByte d x = M.userByte d x) ∧
        last addrs'.length sp' ∧
        (StringsFit (PushFits s) last' s argv addrs.length sp → last' addrs'.length sp') := by
  induction argv generalizing addrs sp M with
  | nil =>
    refine ⟨some (sp, addrs), [], M, rfl, h, fun _ => forall_mem_nil _, ?_⟩
    intro sp' addrs' he
    cases he
    exact ⟨[], (append_nil _).symm, rfl, hsp, id, fun _ _ _ => rfl, hfit, id⟩
  | cons arg argv ih =>
    rcases Nat.lt_or_ge addrs.length maxarg with hargc | hargc
    swap
    · rw [pushStrings]
      refine ⟨none, [], M, if_pos hargc, h, fun _ => forall_mem_nil _, ?_⟩
      intro sp' addrs' he
      cases he
    obtain ⟨hwalk, hrest⟩ := hfit hargc
    have hn : (arg ++ [0]).length = arg.length + 1 := length_append
    have hlt := hlen arg mem_cons_self
    have hpush := push_ok h hst hsp.ge hsp.le (p := arg ++ [0]) append_zero_ne_nil (by omega)
      (by rw [hn]; exact hwalk)
    rw [hn] at hpush
    obtain ⟨stores, M₁, hrun, hM₁, hin, hdone⟩ := hpush
    have hpoint := hsp.push hst (n := arg.length + 1) (Nat.succ_pos _) (by omega)
    rw [pushStrings_cons hargc, StringsFit]
    generalize pushAddr sp (arg.length + 1) = a at *
    rw [hrun, ok_bind]
    by_cases hv : a / pgsize + 1 = s.pages
    · obtain ⟨hm, rfl⟩ := hdone hv
      obtain ⟨hsp₁, hbelow, hpage⟩ := hpoint hv
      have hmapped : a / pgsize < s.mapped := by omega
      have hfull : a % pgsize + (arg ++ [0]).length ≤ pgsize := by rwa [hn]
      have hcount : ∀ {fits : ℕ → Prop} {last : ℕ → ℕ → Prop},
          StringsFit fits last s argv (addrs.length + 1) a →
            StringsFit fits last s argv (addrs ++ [a]).length a := by
        intro fits last hf
        rw [length_append]
        exact hf
      obtain ⟨r, more, M', hrun', hM', hin', hres⟩ := ih hM₁ hsp₁
        (fun arg harg => hlen arg (mem_cons_of_mem _ harg)) (hcount (hrest hv))
      rw [decide_eq_true hv]
      simp only [if_true, hrun', ok_bind]
      refine ⟨r, stores ++ more, M', rfl, hM', fun hfits => ?_, fun sp' addrs' he => ?_⟩
      · exact forall_mem_append.mpr ⟨hin (hfits hargc).1.1, hin' (hcount ((hfits hargc).2 hv))⟩
      · obtain ⟨new, rfl, hplaced, hsp', hmax, hframe, hwalk', hfits'⟩ := hres sp' addrs' he
        have hsz := hsp.le
        refine ⟨a :: new, ?_, ⟨hbelow, ?_, hplaced⟩, hsp', fun _ => hmax ?_, ?_, hwalk',
          fun hfits => hfits' (hcount ((hfits hargc).2 hv))⟩
        · rw [append_assoc]
          rfl
        · rw [userBytes_congr fun i hi => hframe _ (by omega) (by omega), ← hn]
          exact userBytes_push h hmapped hfull
        · rw [length_append]
          exact hargc
        · intro x hx hxs
          rw [hframe x (by omega) hxs]
          refine userByte_push h hmapped (by omega) ?_
          have hround := hst.round
          simp only [pgsize] at hround hxs ⊢
          omega
    · rw [decide_eq_false hv]
      refine ⟨none, stores, M₁, rfl, hM₁, fun hfits => hin (hfits hargc).1.1, ?_⟩
      intro sp' addrs' he
      cases he

end Stack

/-! ## The arguments -/

/-- Where the arguments are, and how long: the words at `sp`, and the strings. -/
def argRegions (sp : ℕ) (argv : List (List UInt8)) (addrs : List ℕ) : List (ℕ × ℕ) :=
  (sp, 4 * (argv.length + 4)) :: List.zipWith (fun a arg => (a, arg.length + 1)) addrs argv

/-- **What `main` finds**: at `sp` there are the return address, `argc`, and a pointer to the words
that follow; these are the addresses of the strings, and `0`.  All this is in the page of the
stack, and nothing overlaps. -/
def ArgLayout (M : Mem) (d sz : ℕ) (argv : List (List UInt8)) (sp : ℕ) : Prop :=
  ∃ addrs : List ℕ,
    M.userBytes d sp (4 * (argv.length + 4)) =
      ([0xffffffff, argv.length, sp + 12] ++ addrs ++ [0]).flatMap wordBytes ∧
    List.Forall₂ (fun a arg => M.userBytes d a (arg.length + 1) = arg ++ [0]) addrs argv ∧
    (argRegions sp argv addrs).Pairwise (fun p q => p.1 + p.2 ≤ q.1 ∨ q.1 + q.2 ≤ p.1) ∧
    ∀ p ∈ argRegions sp argv addrs, sz - pgsize ≤ p.1 ∧ p.1 + p.2 ≤ sz

theorem ArgLayout.congr {sz : ℕ} {argv : List (List UInt8)} (h : ArgLayout M d sz argv sp)
    (hx : ∀ x < sz, M'.userByte d x = M.userByte d x) : ArgLayout M' d sz argv sp := by
  obtain ⟨addrs, hwords, hstrings, hdis, hin⟩ := h
  obtain ⟨hsp, hin'⟩ := forall_mem_cons.mp hin
  refine ⟨addrs, ?_, ?_, hdis, hin⟩
  · rw [← hwords]
    exact userBytes_congr fun i hi => hx _ (by omega)
  · clear hwords hdis hin hsp
    induction hstrings with
    | nil => exact .nil
    | cons hbytes _ ih =>
      rw [zipWith_cons_cons] at hin'
      obtain ⟨hfirst, hrest⟩ := forall_mem_cons.mp hin'
      refine .cons ?_ (ih hrest)
      rw [← hbytes]
      exact userBytes_congr fun i hi => hx _ (by omega)

section Placed

variable {hi lo : ℕ} {argv : List (List UInt8)} {addrs : List ℕ}

section

variable (h : Placed M d hi argv addrs lo)
include h

theorem Placed.forall₂ :
    List.Forall₂ (fun a arg => M.userBytes d a (arg.length + 1) = arg ++ [0]) addrs argv := by
  induction h using Placed.ind with
  | nil => exact .nil
  | cons _ hbytes _ ih => exact .cons hbytes ih

theorem Placed.bounds :
    ∀ p ∈ List.zipWith (fun a (arg : List UInt8) => (a, arg.length + 1)) addrs argv,
      lo ≤ p.1 ∧ p.1 + p.2 ≤ hi := by
  induction h using Placed.ind with
  | nil => exact forall_mem_nil _
  | cons hend _ hrest ih =>
    rw [zipWith_cons_cons]
    refine forall_mem_cons.mpr ⟨⟨hrest.le, hend⟩, fun p hp => ?_⟩
    obtain ⟨hlo, hle⟩ := ih p hp
    exact ⟨hlo, by omega⟩

theorem Placed.pairwise :
    (List.zipWith (fun a (arg : List UInt8) => (a, arg.length + 1)) addrs argv).Pairwise
      fun p q => p.1 + p.2 ≤ q.1 ∨ q.1 + q.2 ≤ p.1 := by
  induction h using Placed.ind with
  | nil => exact .nil
  | cons _ _ hrest ih =>
    rw [zipWith_cons_cons]
    exact .cons (fun q hq => .inr (hrest.bounds q hq).2) ih

end

end Placed

theorem length_flatMap_wordBytes (ws : List ℕ) : (ws.flatMap wordBytes).length = 4 * ws.length := by
  induction ws with
  | nil => rfl
  | cons w ws ih =>
    rw [flatMap_cons, length_append, ih, length_cons]
    simp only [wordBytes, length_cons, length_nil]
    omega

section Stack

variable (h : Loading L d M₀ (stackPerm s.pages) M s lost) (hst : s.Stack)

/-- What is pushed last. -/
def ustack (sp : ℕ) (addrs : List ℕ) : List ℕ :=
  [0xffffffff, addrs.length, (sp + 2 ^ 32 - (addrs.length + 1) * 4) % 2 ^ 32] ++ addrs ++ [0]

theorem length_ustack (sp : ℕ) (addrs : List ℕ) :
    ((ustack sp addrs).flatMap wordBytes).length = (3 + addrs.length + 1) * 4 := by
  rw [length_flatMap_wordBytes, ustack, length_append, length_append]
  simp only [length_cons, length_nil]
  omega

theorem pushAddr_words (hsp : sp % 4 = 0) :
    (sp + 2 ^ 32 - n * 4) % 2 ^ 32 = pushAddr sp (n * 4) := by
  rw [pushAddr]
  omega

include h hst

theorem pushWords_ok (hsp : Pointer s sp) {argv : List (List UInt8)} {addrs : List ℕ}
    (hplaced : Placed M d s.sz argv addrs sp) (hmax : addrs.length ≤ maxarg)
    (hwalk : PushWalks s (pushAddr sp ((3 + addrs.length + 1) * 4))) :
    ∃ done stores M', M.copyout d (pushAddr sp ((3 + addrs.length + 1) * 4))
        ((ustack sp addrs).flatMap wordBytes) = .ok (done, stores, M') ∧
      Loading L d M₀ (stackPerm s.pages) M' s lost ∧
      (PushFits s (pushAddr sp ((3 + addrs.length + 1) * 4)) → ∀ st ∈ stores, InStack s.sz st) ∧
      (done = true → s.mapped = s.pages ∧
        ArgLayout M' d s.sz argv (pushAddr sp ((3 + addrs.length + 1) * 4))) := by
  have hlen := length_ustack sp addrs
  have hn : (3 + addrs.length + 1) * 4 ≤ 2 ^ 31 := by
    simp only [maxarg] at hmax
    omega
  have hpush := push_ok h hst hsp.ge hsp.le (p := (ustack sp addrs).flatMap wordBytes)
    (ne_nil_of_length_pos (by omega)) (by omega) (by rw [hlen]; exact hwalk)
  rw [hlen] at hpush
  obtain ⟨stores, M', hrun, hM', hin, hdone⟩ := hpush
  refine ⟨_, stores, M', hrun, hM', fun hfit => hin hfit.1, fun hv => ?_⟩
  have hv := of_decide_eq_true hv
  obtain ⟨hm, rfl⟩ := hdone hv
  obtain ⟨hsp', hbelow, hpage⟩ := hsp.push hst (by omega) hn hv
  have hcount := hplaced.length
  have hwords := pushAddr_words hsp.aligned (n := 3 + addrs.length + 1)
  have hsz := hsp.le
  have hlt := hst.sane.le
  have hround := hst.round
  have hge := hsp'.ge
  have hustack : ustack sp addrs =
      [0xffffffff, argv.length, pushAddr sp ((3 + addrs.length + 1) * 4) + 12] ++ addrs ++ [0] := by
    have hthird : (sp + 2 ^ 32 - (addrs.length + 1) * 4) % 2 ^ 32 =
        pushAddr sp ((3 + addrs.length + 1) * 4) + 12 := by
      simp only [kernbase] at hlt
      omega
    rw [ustack, hthird, hcount]
  generalize pushAddr sp ((3 + addrs.length + 1) * 4) = a at *
  have hmapped : a / pgsize < s.mapped := by omega
  have hfull : a % pgsize + ((ustack sp addrs).flatMap wordBytes).length ≤ pgsize := by rwa [hlen]
  refine ⟨hm, addrs, ?_, ?_, ?_, ?_⟩
  · rw [← hustack, show 4 * (argv.length + 4) = ((ustack sp addrs).flatMap wordBytes).length by omega]
    exact userBytes_push h hmapped hfull
  · refine (hplaced.congr fun x hx hxs => userByte_push h hmapped (by omega) ?_).forall₂
    simp only [pgsize] at hround hxs ⊢
    omega
  · refine .cons (fun q hq => .inl ?_) hplaced.pairwise
    have := (hplaced.bounds q hq).1
    change a + 4 * (argv.length + 4) ≤ q.1
    omega
  · refine forall_mem_cons.mpr ⟨?_, fun q hq => ?_⟩
    · change s.sz - pgsize ≤ a ∧ a + 4 * (argv.length + 4) ≤ s.sz
      refine ⟨?_, by omega⟩
      simp only [pgsize] at hround hge ⊢
      omega
    · obtain ⟨hlo, hle⟩ := hplaced.bounds q hq
      refine ⟨?_, hle⟩
      simp only [pgsize] at hround hge ⊢
      omega

/-- **The arguments**: if all page tables are there, then `exec` returns from the pushing, and when
it succeeds the arguments are laid out. -/
theorem pushArgs_ok {argv : List (List UInt8)} (hlen : ∀ arg ∈ argv, arg.length < 2 ^ 31)
    (hfit : ArgsFit (PushWalks s) s argv) :
    ∃ r stores M', pushArgs d s.sz argv M = .ok (r, stores, M') ∧
      Loading L d M₀ (stackPerm s.pages) M' s lost ∧
      (ArgsFit (PushFits s) s argv → ∀ st ∈ stores, InStack s.sz st) ∧
      ∀ sp, r = some sp → s.mapped = s.pages ∧ ArgLayout M' d s.sz argv sp := by
  obtain ⟨r, stores, M₁, hrun, hM₁, hin, hres⟩ :=
    pushStrings_ok h hst _ (Room.Stack.pointer hst) hlen
      (show StringsFit (PushWalks s) _ s argv ([] : List ℕ).length s.sz from hfit)
  rw [pushArgs, hrun, ok_bind]
  rcases r with _ | ⟨sp, addrs⟩
  · refine ⟨none, stores, M₁, rfl, hM₁, hin, fun sp he => ?_⟩
    cases he
  · obtain ⟨new, rfl, hplaced, hsp, hmax, -, hwalk, hfits⟩ := hres sp addrs rfl
    have hmax := hmax (Nat.zero_le _)
    obtain ⟨done, more, M', hrun', hM', hin', hdone⟩ := pushWords_ok hM₁ hst hsp hplaced hmax hwalk
    have hwords := pushAddr_words hsp.aligned (n := 3 + addrs.length + 1)
    have hcopy : M₁.copyout d ((sp + 2 ^ 32 - (3 + addrs.length + 1) * 4) % 2 ^ 32)
        (([0xffffffff, addrs.length, (sp + 2 ^ 32 - (addrs.length + 1) * 4) % 2 ^ 32] ++ addrs ++ [0]).flatMap
          wordBytes) = .ok (done, more, M') := by
      rw [hwords]
      exact hrun'
    simp only [hcopy, ok_bind]
    refine ⟨_, stores ++ more, M', rfl, hM', fun hf => ?_, fun sp' he => ?_⟩
    · exact forall_mem_append.mpr ⟨hin hf, hin' (hfits hf)⟩
    · cases done with
      | false => cases he
      | true =>
        cases he
        rw [hwords]
        exact hdone rfl

/-! ### And only then -/

section Converse

variable {good : Store → Prop} {fits : ℕ → Prop}
  (hpush : ∀ {M : Mem} {va : ℕ} {p : List UInt8} {r : Bool × List Store × Mem},
    Loading L d M₀ (stackPerm s.pages) M s lost → va < 2 ^ 32 → p ≠ [] → M.copyout d va p = .ok r →
      (∀ st ∈ r.2.1, good st) → fits va)

include hpush

theorem argsFit_of_pushStrings (hsp : Pointer s sp) {argv : List (List UInt8)} {addrs : List ℕ}
    (hlen : ∀ arg ∈ argv, arg.length < 2 ^ 31) {r : Option (ℕ × List ℕ) × List Store × Mem}
    (hrun : pushStrings d argv addrs sp M = .ok r) (hgood : ∀ st ∈ r.2.1, good st)
    {last : ℕ → ℕ → Prop} (hlast : ∀ sp' addrs', r.1 = some (sp', addrs') → last addrs'.length sp') :
    StringsFit fits last s argv addrs.length sp := by
  induction argv generalizing addrs sp M r with
  | nil =>
    obtain rfl := Except.ok.inj hrun
    exact hlast sp addrs rfl
  | cons arg argv ih =>
    intro hargc
    have hn : (arg ++ [0]).length = arg.length + 1 := length_append
    have hlt := hlen arg mem_cons_self
    have hpoint := hsp.push hst (n := arg.length + 1) (Nat.succ_pos _) (by omega)
    have hva := (pushAddr_cases hst hsp.ge hsp.le (n := arg.length + 1) (Nat.succ_pos _) (by omega)).1
    rw [pushStrings_cons hargc] at hrun
    rcases hcopy : M.copyout d (pushAddr sp (arg.length + 1)) (arg ++ [0]) with _ | ⟨done, stores, M₁⟩
    · rw [hcopy] at hrun
      cases hrun
    have hok := push_ok h hst hsp.ge hsp.le (p := arg ++ [0]) append_zero_ne_nil (by omega)
      (by rw [hn]; exact pushWalks_of_copyout h hva append_zero_ne_nil hcopy)
    rw [hn] at hok
    obtain ⟨stores', M₁', hcopy', hM₁, -⟩ := hok
    cases hcopy.symm.trans hcopy'
    rw [hcopy, ok_bind] at hrun
    have hfit : (∀ st ∈ stores, good st) → fits (pushAddr sp (arg.length + 1)) :=
      hpush h hva append_zero_ne_nil hcopy
    by_cases hv : pushAddr sp (arg.length + 1) / pgsize + 1 = s.pages
    · simp only [decide_eq_true hv, if_true] at hrun
      rcases hrest : pushStrings d argv (addrs ++ [pushAddr sp (arg.length + 1)])
          (pushAddr sp (arg.length + 1)) M₁ with _ | r₁
      · rw [hrest] at hrun
        cases hrun
      rw [hrest] at hrun
      obtain rfl := Except.ok.inj hrun
      obtain ⟨hgood₁, hgood₂⟩ := forall_mem_append.mp hgood
      refine ⟨hfit hgood₁, fun _ => ?_⟩
      have hres := ih hM₁ (hpoint hv).1 (fun arg harg => hlen arg (mem_cons_of_mem _ harg)) hrest
        hgood₂ hlast
      rwa [length_append] at hres
    · rw [decide_eq_false hv] at hrun
      obtain rfl := Except.ok.inj hrun
      exact ⟨hfit hgood, fun he => absurd he hv⟩

theorem argsFit_of_pushArgs {argv : List (List UInt8)} (hlen : ∀ arg ∈ argv, arg.length < 2 ^ 31)
    {r : Option ℕ × List Store × Mem} (hrun : pushArgs d s.sz argv M = .ok r)
    (hgood : ∀ st ∈ r.2.1, good st) : ArgsFit fits s argv := by
  rw [pushArgs] at hrun
  rcases hstrings : pushStrings d argv [] s.sz M with _ | ⟨o, stores, M₁⟩
  · rw [hstrings] at hrun
    cases hrun
  rw [hstrings, ok_bind] at hrun
  have hsp := Room.Stack.pointer hst
  have hwalks : StringsFit (PushWalks s) (fun _ _ => True) s argv [].length s.sz :=
    argsFit_of_pushStrings h hst
      (fun hM hva hp hcopy (_ : ∀ st ∈ _, True) => pushWalks_of_copyout hM hva hp hcopy) hsp hlen hstrings
      (fun _ _ => trivial) fun _ _ _ => trivial
  obtain ⟨r', stores', M₁', hstrings', hM₁, -, hres⟩ :=
    pushStrings_ok h hst (fun _ _ => True) hsp hlen hwalks
  cases hstrings.symm.trans hstrings'
  rcases o with _ | ⟨sp, addrs⟩
  · obtain rfl := Except.ok.inj hrun
    refine argsFit_of_pushStrings h hst hpush hsp hlen hstrings hgood fun sp' addrs' he => ?_
    cases he
  · obtain ⟨new, rfl, -, hsp', hmax, -⟩ := hres sp addrs rfl
    have hmax := hmax (Nat.zero_le _)
    simp only [maxarg] at hmax
    have hwords := pushAddr_words hsp'.aligned (n := 3 + addrs.length + 1)
    simp only [hwords] at hrun
    change (do
      let (done, more, M) ← M₁.copyout d (pushAddr sp ((3 + addrs.length + 1) * 4))
        ((ustack sp addrs).flatMap wordBytes)
      pure (if done then some (pushAddr sp ((3 + addrs.length + 1) * 4)) else none, stores ++ more, M)) =
        .ok r at hrun
    rcases hcopy : M₁.copyout d (pushAddr sp ((3 + addrs.length + 1) * 4))
        ((ustack sp addrs).flatMap wordBytes) with _ | r₁
    · rw [hcopy] at hrun
      cases hrun
    · rw [hcopy] at hrun
      obtain rfl := Except.ok.inj hrun
      obtain ⟨hgood₁, hgood₂⟩ := forall_mem_append.mp hgood
      refine argsFit_of_pushStrings h hst hpush hsp hlen hstrings hgood₁ fun sp' addrs' he => ?_
      cases he
      refine hpush hM₁ ?_ (ne_nil_of_length_pos (by rw [length_ustack]; omega)) hcopy hgood₂
      exact (pushAddr_cases hst hsp'.ge hsp'.le (by omega) (by omega)).1

end Converse

end Stack

end Mem
end Xv6.Vm
