import Xv6.Umalloc.Integrity
import Xv6.Vm.Basic

/-!
# What `malloc` gets from `sbrk`

`morecore` multiplies the number of units by 8 and passes the product to `sbrk`, which takes an
`int`.  From `2 ^ 31` bytes on the number is negative there: `growproc` then shrinks the process, or,
if that would take it below zero, does nothing and reports success, since `deallocuvm` returns the old
size if the new one is not smaller.  `morecore` takes the old break for a block of the size it has
asked for.  It stores a header there first, which is a page fault if the page is not mapped.
Rounding up wraps as well: the last seven sizes become a block of one unit, its header.
-/

namespace Xv6.Umalloc

open Function List Span
open Vm (kernbase pgroundup)

/-! ## The size of the process -/

/-- 0 is a failure. -/
def nonzero (r : ℕ) : Option ℕ := if r = 0 then none else some r

/-- What `allocuvm` returns; `room` is whether there are pages to grow by. -/
def allocSize (oldsz newsz : ℕ) (room : Bool) : ℕ :=
  if kernbase ≤ newsz then 0 else if newsz < oldsz then oldsz else if room then newsz else 0

/-- What `deallocuvm` returns. -/
def deallocSize (oldsz newsz : ℕ) : ℕ := if oldsz ≤ newsz then oldsz else newsz

/-- `proc->sz` after `growproc(n)`, which is `none` if that returns -1. -/
def growSize (sz : ℕ) (n : ℤ) (room : Bool) : Option ℕ :=
  let newsz := ((sz + n) % 2 ^ 32).toNat
  if 0 < n then nonzero (allocSize sz newsz room)
  else if n < 0 then nonzero (deallocSize sz newsz)
  else some sz

section Growproc

variable {L : Vm.Layout} {d oldsz newsz r : ℕ} {M' : Vm.Mem}

theorem bind_ok {ε α β : Type} {x : Except ε α} {f : α → Except ε β} {b : β} (h : x >>= f = .ok b) :
    ∃ a, x = .ok a ∧ f a = .ok b := by
  cases x with
  | error e => cases h
  | ok a => exact ⟨a, rfl, h⟩

theorem allocFrom_size {n a : ℕ} {M : Vm.Mem}
    (h : Vm.Mem.allocFrom L d oldsz newsz n a M = .ok (r, M')) : r = newsz ∨ r = 0 := by
  induction n generalizing a M with
  | zero =>
    cases h
    exact .inl rfl
  | succ n ih =>
    rw [Vm.Mem.allocFrom] at h
    split at h
    · obtain ⟨x, -, h⟩ := bind_ok h
      cases h
      exact .inr rfl
    · obtain ⟨x, -, h⟩ := bind_ok h
      exact ih h

theorem allocuvm_size {M : Vm.Mem} (h : Vm.Mem.allocuvm L M d oldsz newsz = .ok (r, M')) :
    ∃ room, r = allocSize oldsz newsz room := by
  rw [Vm.Mem.allocuvm] at h
  simp only [allocSize]
  split_ifs at h with hk hn
  · cases h
    exact ⟨true, (if_pos hk).symm⟩
  · cases h
    exact ⟨true, by rw [if_neg hk, if_pos hn]⟩
  · obtain rfl | rfl := allocFrom_size h
    · exact ⟨true, by rw [if_neg hk, if_neg hn, if_pos rfl]⟩
    · exact ⟨false, by rw [if_neg hk, if_neg hn, if_neg Bool.false_ne_true]⟩

theorem deallocuvm_size {M : Vm.Mem} (h : Vm.Mem.deallocuvm L M d oldsz newsz = .ok (r, M')) :
    r = deallocSize oldsz newsz := by
  rw [Vm.Mem.deallocuvm] at h
  rw [deallocSize]
  split_ifs at h ⊢
  · cases h
    rfl
  · obtain ⟨x, -, h⟩ := bind_ok h
    cases h
    rfl

theorem growproc_size {M : Vm.Mem} {sz sz' : ℕ} {n e : ℤ}
    (h : Vm.Mem.growproc L M d sz n = .ok (e, sz', M')) :
    ∃ room, e = 0 ∧ growSize sz n room = some sz' ∨ e = -1 ∧ sz' = sz ∧ growSize sz n room = none := by
  rw [Vm.Mem.growproc] at h
  dsimp only at h
  -- what is done with the new size
  have hend : ∀ {x : ℕ × Vm.Mem}, (if x.1 = 0 then pure (-1, sz, x.2) else pure (0, x.1, x.2) :
      Except Vm.Stop (ℤ × ℕ × Vm.Mem)) = .ok (e, sz', M') →
      e = 0 ∧ nonzero x.1 = some sz' ∨ e = -1 ∧ sz' = sz ∧ nonzero x.1 = none := by
    intro x hx
    rw [nonzero]
    split_ifs at hx ⊢ <;> cases hx
    · exact .inr ⟨rfl, rfl, rfl⟩
    · exact .inl ⟨rfl, rfl⟩
  simp only [growSize]
  split_ifs at h ⊢
  · obtain ⟨x, hx, h⟩ := bind_ok h
    obtain ⟨room, hroom⟩ := allocuvm_size hx
    exact ⟨room, hroom ▸ hend h⟩
  · obtain ⟨x, hx, h⟩ := bind_ok h
    exact ⟨true, deallocuvm_size hx ▸ hend h⟩
  · cases h
    exact ⟨true, .inl ⟨rfl, rfl⟩⟩

end Growproc

/-! ## `malloc` -/

/-- A number of 32 bits as an `int`. -/
def signed (x : ℕ) : ℤ := if x < 2 ^ 31 then x else x - 2 ^ 32

/-- What a call of `malloc` can end in other than its return. -/
inductive Stop where
  | hangs
  | pageFault

/-- `malloc` in a process of size `sz`, with `sbrk`; the pages up to the size of the process are
mapped. -/
def malloc (base : ℕ) (room : Bool) (S : State) (sz nbytes : ℕ) : Except Stop (State × ℕ) :=
  match State.mallocLoop { S with heap := S.heap.start base } nbytes with
  | .error _ => .error .hangs
  | .ok S =>
    if S.waiting = none then .ok (S, sz)
    else
      match growSize sz (signed (moreBytes (nunits nbytes))) room with
      | none => .ok ({ S with waiting := none }, sz)
      | some sz' =>
        -- `hp->s.size = nu`, where the break was
        if pgroundup sz' < sz + 8 then .error .pageFault
        else
          match S.morecore (nunits nbytes) sz with
          | .error _ => .error .hangs
          | .ok S =>
            match S.mallocLoop nbytes with
            | .error _ => .error .hangs
            | .ok S => .ok (S, sz')

/-- A process of size `sz` whose heap is whole and below the break. -/
structure Running (base : ℕ) (S : State) (sz : ℕ) : Prop where
  base_pos : 0 < base
  base_le : base + 8 ≤ sz
  lt : sz < kernbase
  whole : Whole base S
  idle : S.waiting = none
  below : ∀ r ∈ S.ranges, r.lo + r.len ≤ sz

/-- **`malloc` does not lie**: a pointer that it returns is to as many bytes as were asked for, below
the break and in no other block in use, and the break is not lower than before. -/
def Truthful (base : ℕ) (room : Bool) (S : State) (sz nbytes : ℕ) : Prop :=
  ∀ p S' sz', malloc base room S sz nbytes = .ok (S', sz') → S'.live = ⟨p, nbytes⟩ :: S.live →
    sz ≤ sz' ∧ p + nbytes ≤ sz' ∧
      ∀ l ∈ S.live, ∀ x, p ≤ x → x < p + nbytes → x ∉ (S'.block l).bytes

section Truthful

variable {base sz nbytes : ℕ} {S S' : State} {L : List Span}

theorem mallocLoop_cases (h : S.mallocLoop nbytes = .ok S') :
    S'.ranges = S.ranges ∧ (S'.waiting ≠ none → S' = { S with waiting := some nbytes }) := by
  rw [State.mallocLoop] at h
  split at h
  · cases h
  · split at h <;> cases h
    · exact ⟨rfl, fun hw => absurd rfl hw⟩
    · exact ⟨rfl, fun _ => rfl⟩

theorem morecore_ranges {nu p : ℕ} (h : S.morecore nu p = .ok S') :
    S'.ranges = ⟨p, moreBytes nu⟩ :: S.ranges := by
  rw [State.morecore, State.free] at h
  split at h
  · cases h
  · cases h
    rfl

theorem Owned.truthful (h : Owned base S L) {p : ℕ} {ls : List Live} (hlive : S.live = ⟨p, nbytes⟩ :: ls)
    (hbelow : ∀ r ∈ S.ranges, r.lo + r.len ≤ sz) :
    p + nbytes ≤ sz ∧ ∀ l ∈ ls, ∀ x, p ≤ x → x < p + nbytes → x ∉ (S.block l).bytes := by
  have hmem : (⟨p, nbytes⟩ : Live) ∈ S.live := hlive ▸ mem_cons_self ..
  obtain ⟨hap, hsmall, hsize⟩ := h.live _ hmem
  dsimp only at hap hsmall hsize
  have hlen : nbytes + 8 ≤ (S.block ⟨p, nbytes⟩).len := by
    rw [State.block, hsize, hsmall.nunits]
    show nbytes + 8 ≤ 8 * ((nbytes + 7) / 8 + 1)
    omega
  have hlo : (S.block ⟨p, nbytes⟩).lo + 8 = p := hap.symm
  refine ⟨?_, fun l hl x hx hx' hxl => ?_⟩
  · obtain ⟨r, hr, -, hlt⟩ : ∃ r ∈ S.ranges, r.lo ≤ (S.block ⟨p, nbytes⟩).lo + (nbytes + 7) ∧
        (S.block ⟨p, nbytes⟩).lo + (nbytes + 7) < r.lo + r.len := by
      refine mem_bytesAll.mp (h.account.mem_iff.mp (mem_bytesAll.mpr
        ⟨S.block ⟨p, nbytes⟩, mem_append_right _ (Owned.block_mem hmem), ?_, ?_⟩)) <;> omega
    have := hbelow r hr
    omega
  · have hdisj := (pairwise_append.mp (nodup_bytesAll.mp h.nodup_blocks)).2.1
    rw [State.blocks, hlive, map_cons, pairwise_cons] at hdisj
    refine hdisj.1 _ (mem_map_of_mem hl) (mem_bytes.mpr ?_) hxl
    omega

/-- The request, rounded up and with its header, is less than 2 GB: `sbrk` takes it for what it is. -/
def Fitting (nbytes : ℕ) : Prop := (nbytes + 7) / 8 * 8 + 8 < 2 ^ 31

instance (nbytes : ℕ) : Decidable (Fitting nbytes) := inferInstanceAs (Decidable (_ < _))

theorem growSize_fitting (hfit : Fitting nbytes) (hsz : sz < kernbase) {room : Bool} {sz' : ℕ}
    (h : growSize sz (signed (moreBytes (nunits nbytes))) room = some sz') :
    sz' = sz + moreBytes (nunits nbytes) ∧ sz' < kernbase := by
  have hsmall : Small nbytes := by
    rw [Small]
    rw [Fitting] at hfit
    omega
  have hle := le_moreUnits (nunits nbytes)
  have hpos := nunits_pos nbytes
  have hlt : moreBytes (nunits nbytes) < 2 ^ 31 := by
    rw [hsmall.moreBytes, moreUnits, hsmall.nunits]
    rw [Fitting] at hfit
    split <;> omega
  rw [hsmall.moreBytes] at hlt h ⊢
  obtain ⟨nu, hnu⟩ : ∃ nu, nu = moreUnits (nunits nbytes) := ⟨_, rfl⟩
  rw [← hnu] at hle hlt h ⊢
  rw [kernbase] at hsz
  have hnew : (((sz : ℤ) + ((8 * nu : ℕ) : ℤ)) % 2 ^ 32).toNat = sz + 8 * nu := by omega
  rw [signed, if_pos hlt, growSize] at h
  simp only [hnew, if_pos (show (0 : ℤ) < ((8 * nu : ℕ) : ℤ) by omega), allocSize, nonzero, kernbase] at h ⊢
  split_ifs at h <;> simp at h <;> omega

theorem Running.truthful (h : Running base S sz) (hfit : Fitting nbytes) (room : Bool) :
    Truthful base room S sz nbytes := by
  intro p S' sz' hrun hlive
  have hsmall : Small nbytes := by
    rw [Small]
    rw [Fitting] at hfit
    omega
  have hbase := h.base_le
  have hlt := h.lt
  rw [kernbase] at hlt
  obtain ⟨L, hL⟩ := h.whole.start h.base_pos (by omega)
  obtain ⟨S₁, hS₁, ⟨L₁, hL₁⟩, -⟩ := hL.mallocLoop hsmall
  obtain ⟨hranges, hwait⟩ := mallocLoop_cases hS₁
  simp only [malloc, hS₁] at hrun
  split_ifs at hrun with hw
  · cases hrun
    exact ⟨le_rfl, hL₁.truthful hlive fun r hr => h.below r (hranges ▸ hr)⟩
  · rw [hwait hw] at hrun hL₁
    split at hrun
    · cases hrun
      exact absurd (congrArg List.length hlive) (by simp)
    · rename_i sz₁ hgrow
      obtain ⟨rfl, hsz₁⟩ := growSize_fitting hfit h.lt hgrow
      rw [kernbase] at hsz₁
      obtain ⟨S₂, hS₂, hlive₂, L₂, hL₂, -⟩ :=
        hL₁.morecore (p := sz) hsmall h.base_le h.below (by omega)
      obtain ⟨S₃, hS₃, ⟨L₃, hL₃⟩, -⟩ := hL₂.mallocLoop hsmall
      simp only [hS₂, hS₃] at hrun
      split_ifs at hrun
      cases hrun
      refine ⟨Nat.le_add_right .., hL₃.truthful hlive fun r hr => ?_⟩
      rw [(mallocLoop_cases hS₃).1, morecore_ranges hS₂] at hr
      obtain rfl | hr := mem_cons.mp hr
      · exact le_rfl
      · exact (h.below r hr).trans (Nat.le_add_right ..)

end Truthful

/-! ## Requests that wrap -/

/-- Before the first call, with nothing in memory. -/
def untouched : State := ⟨⟨fun _ => 0, fun _ => 0, 0⟩, none, [], []⟩

theorem running_untouched {base sz : ℕ} (hpos : 0 < base) (hle : base + 8 ≤ sz) (hlt : sz < kernbase) :
    Running base untouched sz :=
  ⟨hpos, hle, hlt, .inl ⟨rfl, rfl, rfl, rfl⟩, rfl, fun _ hr => by cases hr⟩

section Wraps

variable {base sz sz' nbytes : ℕ} {room : Bool}

theorem malloc_untouched (hpos : 0 < base) (hle : base + 8 ≤ sz) (hlt : sz + 8 < 2 ^ 32)
    (hjoin : plus sz (moreUnits (nunits nbytes)) ≠ base)
    (hgrow : growSize sz (signed (moreBytes (nunits nbytes))) room = some sz')
    (hmapped : sz + 8 ≤ pgroundup sz') :
    ∃ S' p, malloc base room untouched sz nbytes = .ok (S', sz') ∧ S'.live = [⟨p, nbytes⟩] := by
  have hne : sz ≠ base := by omega
  have hunits : nunits nbytes ≠ 0 := (nunits_pos nbytes).ne'
  -- the list is `base` alone
  obtain ⟨S₁, hS₁⟩ : ∃ S₁ : State, S₁ =
      { untouched with heap := untouched.heap.start base, waiting := some nbytes } := ⟨_, rfl⟩
  have hfirst : State.mallocLoop { untouched with heap := untouched.heap.start base } nbytes = .ok S₁ := by
    simp [State.mallocLoop, untouched, State.rounds, Heap.start, follow, Heap.found, hunits, hS₁]
  -- then `base` and the block at the old break
  obtain ⟨S₂, hS₂⟩ : ∃ S₂ : State, S₂ =
      { S₁ with
        heap := { ptr := update (update (update (fun _ => 0) base base) sz base) base sz
                  size := update (update (fun _ => 0) base 0) sz (moreUnits (nunits nbytes))
                  freep := base }
        ranges := [⟨sz, moreBytes (nunits nbytes)⟩] } := ⟨_, rfl⟩
  have hsecond : S₁.morecore (nunits nbytes) sz = .ok S₂ := by
    have hslot : base < sz := by omega
    have hlower : plus base 0 ≠ sz := by
      rw [plus]
      omega
    have hfollow : ∀ n, follow (update (fun _ => 0) base base)
        (Heap.slot ⟨update (fun _ => 0) base base,
          update (update (fun _ => 0) base 0) sz (moreUnits (nunits nbytes)), base⟩ sz)
        (2 + n) base = some base := by
      intro n
      rw [add_comm, follow, if_pos]
      simp [Heap.slot, hslot]
    simp only [State.morecore, State.gain, State.free, hS₁, untouched, Heap.start, Heap.free, State.rounds,
      show plus sz 1 = sz + 8 from plus_eq (by omega), header_add (show sz < 2 ^ 32 by omega), if_true,
      hfollow, Option.map_some, hS₂]
    simp [Heap.joinUpper, Heap.joinLower, hjoin, hne.symm, hlower]
  have hthird : ∃ S' p, S₂.mallocLoop nbytes = .ok S' ∧ S'.live = [⟨p, nbytes⟩] := by
    have hfollow : follow S₂.heap.ptr (S₂.heap.found (nunits nbytes)) S₂.rounds S₂.heap.freep = some base := by
      rw [State.rounds, add_comm, follow, if_pos]
      · simp [hS₂]
      · simp [hS₂, Heap.found, le_moreUnits]
    have hroom : nunits nbytes ≤ S₂.heap.size (S₂.heap.ptr base) := by
      simp [hS₂, le_moreUnits]
    refine ⟨{ S₂ with
        heap := (S₂.heap.take (nunits nbytes) base).1
        live := ⟨(S₂.heap.take (nunits nbytes) base).2, nbytes⟩ :: S₂.live
        waiting := none }, (S₂.heap.take (nunits nbytes) base).2, ?_, ?_⟩
    · simp only [State.mallocLoop, hfollow, if_pos hroom]
    · simp only [hS₂, hS₁, untouched]
  obtain ⟨S', p, hS', hp⟩ := hthird
  refine ⟨S', p, ?_, hp⟩
  have hw : S₁.waiting ≠ none := by simp [hS₁]
  simp only [malloc, hfirst, if_neg hw, hgrow, if_neg (not_lt.mpr hmapped), hsecond, hS']

theorem growSize_shrinks {x : ℕ} (hx : 2 ^ 31 ≤ x) (hlt : x < 2 ^ 32) (hle : 2 ^ 32 < sz + x)
    (hsz : sz < 2 ^ 31) : growSize sz (signed x) room = some (sz + x - 2 ^ 32) := by
  have hneg : (x : ℤ) - 2 ^ 32 < 0 := by omega
  have hnew : ((sz + ((x : ℤ) - 2 ^ 32)) % 2 ^ 32).toNat = sz + x - 2 ^ 32 := by omega
  have hlower : ¬ sz ≤ sz + x - 2 ^ 32 := by omega
  rw [signed, if_neg (by omega), growSize]
  simp only [hnew, if_neg hneg.not_gt, if_pos hneg, deallocSize, if_neg hlower, nonzero]
  exact if_neg (by omega)

theorem growSize_wraps {x : ℕ} (hpos : 0 < sz) (h : x = 0 ∨ 2 ^ 31 ≤ x ∧ sz + x < 2 ^ 32) :
    growSize sz (signed x) room = some sz := by
  obtain rfl | ⟨hx, hlt⟩ := h
  · rfl
  · have hneg : (x : ℤ) - 2 ^ 32 < 0 := by omega
    have hnew : ((sz + ((x : ℤ) - 2 ^ 32)) % 2 ^ 32).toNat = sz + x := by omega
    rw [signed, if_neg (by omega), growSize]
    simp only [hnew, if_neg hneg.not_gt, if_pos hneg, deallocSize, if_pos (Nat.le_add_right sz x), nonzero]
    exact if_neg hpos.ne'

/-- **A request that does not fit is answered with a lie.** -/
theorem exists_not_truthful (hn : nbytes < 2 ^ 32) (hfit : ¬ Fitting nbytes) :
    ∃ sz, Running 8 untouched sz ∧ ¬ Truthful 8 true untouched sz nbytes := by
  rw [Fitting] at hfit
  -- it is enough that `sbrk` succeeds, and that the header can be stored
  have hlies : ∀ sz sz', 16 ≤ sz → sz < 2 ^ 20 → sz' < 2 ^ 20 →
      plus sz (moreUnits (nunits nbytes)) ≠ 8 →
      growSize sz (signed (moreBytes (nunits nbytes))) true = some sz' → sz + 8 ≤ pgroundup sz' →
      ∃ sz, Running 8 untouched sz ∧ ¬ Truthful 8 true untouched sz nbytes := by
    intro sz sz' hle hsz hsz' hjoin hgrow hmapped
    obtain ⟨S', p, hrun, hlive⟩ := malloc_untouched (by decide) hle (by omega) hjoin hgrow hmapped
    refine ⟨sz, running_untouched (by decide) hle (by rw [kernbase]; omega), fun htrue => ?_⟩
    have := (htrue p S' sz' hrun hlive).2.1
    omega
  by_cases hone : 2 ^ 32 - 7 ≤ nbytes
  · -- one unit, from the least that `morecore` asks for
    have hunits : nunits nbytes = 1 := by
      rw [nunits]
      omega
    refine hlies 4096 36864 (by decide) (by decide) (by decide) ?_ ?_ (by decide) <;> rw [hunits] <;> decide
  · have hunits : nunits nbytes = (nbytes + 7) / 8 + 1 := by
      rw [nunits]
      omega
    have hmore : moreUnits (nunits nbytes) = nunits nbytes := if_neg (by omega)
    have hbytes : moreBytes (nunits nbytes) = 8 * nunits nbytes % 2 ^ 32 := by
      rw [moreBytes, hmore, mul_comm]
    rw [hmore, hbytes] at hlies
    simp only [plus] at hlies
    obtain ⟨u, hu⟩ : ∃ u, u = nunits nbytes := ⟨_, rfl⟩
    rw [← hu] at hlies hunits
    by_cases hshrink : 8 * u < 2 ^ 32 ∧ 2 ^ 32 - 4080 ≤ 8 * u
    · -- the break is lowered, in the page it is in
      refine hlies 12280 (12280 + 8 * u - 2 ^ 32) (by decide) (by decide) (by omega) (by omega) ?_ ?_
      · rw [Nat.mod_eq_of_lt hshrink.1]
        exact growSize_shrinks (by omega) hshrink.1 (by omega) (by decide)
      · simp only [pgroundup, Vm.pgsize]
        omega
    · -- the break stays; the process is a small one if the request is near `2 ^ 32`
      by_cases hnear : 8 * u < 2 ^ 32 ∧ 2 ^ 32 - 16376 ≤ 8 * u
      · refine hlies 4080 4080 (by decide) (by decide) (by decide) (by omega) ?_ (by decide)
        exact growSize_wraps (by decide) (by omega)
      · refine hlies 16376 16376 (by decide) (by decide) (by decide) (by omega) ?_ (by decide)
        exact growSize_wraps (by decide) (by omega)

/-- **`malloc` keeps its word for the sizes that fit, and for no other**: whatever the heap and the
size of the process are, and whether there is memory for the process to grow or not. -/
theorem malloc_truthful_iff (hn : nbytes < 2 ^ 32) :
    (∀ base room S sz, Running base S sz → Truthful base room S sz nbytes) ↔ Fitting nbytes := by
  refine ⟨fun h => ?_, fun hfit base room S sz hrun => hrun.truthful hfit room⟩
  by_contra hfit
  obtain ⟨sz, hrun, hlie⟩ := exists_not_truthful hn hfit
  exact hlie (h 8 true untouched sz hrun)

/-- The first hundred bytes of a process of four pages. -/
theorem malloc_truthful_hundred :
    Running 0x2000 untouched 0x4000 ∧ Truthful 0x2000 true untouched 0x4000 100 := by
  have hrun : Running 0x2000 untouched 0x4000 := running_untouched (by decide) (by decide) (by decide)
  exact ⟨hrun, (malloc_truthful_iff (by decide)).mpr (by decide) _ _ _ _ hrun⟩

/-- A process of `0x4008` bytes asks for `2 ^ 32 - 8` and is given a pointer to its own break. -/
theorem malloc_lies : Running 0x2000 untouched 0x4008 ∧
    ¬ Truthful 0x2000 true untouched 0x4008 0xFFFFFFF8 := by
  refine ⟨running_untouched (by decide) (by decide) (by decide), fun htrue => ?_⟩
  obtain ⟨S', p, hrun, hlive⟩ := malloc_untouched (show 0 < 0x2000 by decide) (by decide) (by decide) (by decide)
    (show growSize 0x4008 (signed (moreBytes (nunits 0xFFFFFFF8))) true = some 0x4008 by decide) (by decide)
  have := (htrue p S' 0x4008 hrun hlive).2.1
  omega

end Wraps

end Xv6.Umalloc
