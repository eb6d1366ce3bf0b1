import Xv6.Umalloc.FreeList

/-!
# The heap stays whole

In every state that calls of `malloc` and `free` lead to, the free blocks and the blocks that
are in use divide the memory that `sbrk` has returned among them (`Owned`).  The loops always
end, since the free list is a circle of no more blocks than there is memory for, and the loop
of `malloc` ends with a block once it has been given memory.
-/

namespace Xv6.Umalloc

open Function List Span Transition

namespace State

/-- The block of a pointer, with its header. -/
def block (S : State) (l : Live) : Span := ⟨header l.ap, 8 * S.heap.size (header l.ap)⟩

/-- The blocks that are in use. -/
def blocks (S : State) : List Span := S.live.map S.block

end State

/-- `nu` units of new memory at `p` are in use. -/
def State.handOut (S : State) (p nu : ℕ) : State :=
  { S.gain p nu (8 * nu) with live := ⟨p + 8, 8 * (nu - 1)⟩ :: S.live }

theorem map_block {S S' : State} {ls : List Live}
    (h : ∀ l ∈ ls, S'.heap.size (header l.ap) = S.heap.size (header l.ap)) :
    ls.map S'.block = ls.map S.block := by
  refine map_congr_left fun l hl => ?_
  rw [State.block, State.block, h l hl]

/-- The request, rounded up, is less than 2 GB. -/
def Small (nbytes : ℕ) : Prop := (nbytes + 7) / 8 * 8 < 2 ^ 31

theorem Small.nunits {nbytes : ℕ} (h : Small nbytes) : nunits nbytes = (nbytes + 7) / 8 + 1 := by
  rw [Small] at h
  rw [Umalloc.nunits]
  omega

theorem Small.moreBytes {nbytes : ℕ} (h : Small nbytes) :
    moreBytes (Umalloc.nunits nbytes) = 8 * moreUnits (Umalloc.nunits nbytes) := by
  have hn := h.nunits
  rw [Small] at h
  rw [Umalloc.moreBytes, moreUnits]
  split <;> omega

theorem Small.moreUnits_le {nbytes : ℕ} (h : Small nbytes) :
    moreUnits (Umalloc.nunits nbytes) ≤ 2 ^ 28 := by
  have hn := h.nunits
  rw [Small] at h
  rw [moreUnits]
  split <;> omega

theorem le_moreUnits (n : ℕ) : n ≤ moreUnits n := by
  rw [moreUnits]
  split <;> omega

theorem nunits_pos (nbytes : ℕ) : 0 < nunits nbytes := Nat.succ_pos _

/-- **The memory is divided among the blocks.** -/
structure Owned (base : ℕ) (S : State) (L : List Span) : Prop where
  freeList : FreeList base S.heap L
  account : (bytesAll (L ++ S.blocks)).Perm (bytesAll S.ranges)
  nodup : (bytesAll S.ranges).Nodup
  ranges : ∀ r ∈ S.ranges, base + 8 ≤ r.lo ∧ r.lo + r.len < 2 ^ 32
  live : ∀ l ∈ S.live, l.ap = header l.ap + 8 ∧ Small l.nbytes ∧
    S.heap.size (header l.ap) = nunits l.nbytes
  waiting : ∀ nbytes, S.waiting = some nbytes → Small nbytes

namespace Owned

variable {base : ℕ} {S : State} {L : List Span}

section

variable (h : Owned base S L)
include h

theorem nodup_blocks : (bytesAll (L ++ S.blocks)).Nodup :=
  h.account.nodup_iff.mpr h.nodup

theorem disjoint : (bytesAll L).Disjoint (bytesAll S.blocks) := by
  have hnodup := h.nodup_blocks
  rw [bytesAll_append] at hnodup
  exact disjoint_of_nodup_append hnodup

theorem bounds_mem {x : ℕ} (hx : x ∈ bytesAll (L ++ S.blocks)) : base + 8 ≤ x ∧ x + 1 < 2 ^ 32 := by
  obtain ⟨r, hr, hlo, hlt⟩ := mem_bytesAll.mp (h.account.mem_iff.mp hx)
  have := h.ranges r hr
  omega

theorem bounds {s : Span} (hs : s ∈ L ++ S.blocks) (hpos : 0 < s.len) :
    base + 8 ≤ s.lo ∧ s.lo + s.len < 2 ^ 32 := by
  have hfirst := h.bounds_mem (mem_bytesAll.mpr ⟨s, hs, le_refl _, by omega⟩)
  have hlast := h.bounds_mem (x := s.lo + s.len - 1) (mem_bytesAll.mpr ⟨s, hs, by omega, by omega⟩)
  omega

end

theorem block_mem {l : Live} (hl : l ∈ S.live) : S.block l ∈ S.blocks :=
  mem_map_of_mem hl

section

variable (h : Owned base S L)
include h

theorem block_pos {l : Live} (hl : l ∈ S.live) : 8 ≤ (S.block l).len := by
  have := nunits_pos l.nbytes
  show 8 ≤ 8 * S.heap.size (header l.ap)
  rw [(h.live l hl).2.2]
  omega

theorem header_mem {l : Live} (hl : l ∈ S.live) : header l.ap ∈ bytesAll S.blocks := by
  have := h.block_pos hl
  exact mem_bytesAll.mpr ⟨S.block l, block_mem hl, le_refl _, Nat.lt_add_of_pos_right (by omega)⟩

theorem header_notMem {l : Live} (hl : l ∈ S.live) : header l.ap ∉ L.map lo := by
  intro hm
  obtain ⟨b, hb, hlo⟩ := mem_map.mp hm
  have hheader := h.header_mem hl
  have hbounds := h.bounds_mem (x := header l.ap) (by simp [hheader])
  obtain rfl | ⟨-, hpos⟩ := h.freeList.above b hb
  · simp only at hlo
    omega
  · exact h.disjoint (mem_bytesAll.mpr ⟨b, hb, hlo.le, by omega⟩) hheader

theorem length_le : L.length ≤ S.rounds := by
  obtain ⟨bs, rfl⟩ := h.freeList.eq_cons
  have hlen : 8 * bs.length ≤ (bytesAll bs).length := by
    refine mul_length_le fun b hb => ?_
    have hlt := (pairwise_cons.mp h.freeList.sorted).1 b hb
    have hsize := h.freeList.size b (by simp [hb])
    obtain rfl | ⟨-, hpos⟩ := h.freeList.above b (by simp [hb])
    · simp at hlt
    · omega
  have htotal := h.account.length_eq
  rw [bytesAll_append, length_append, bytesAll_cons, length_append] at htotal
  rw [State.rounds, length_cons, ← length_bytesAll]
  omega

theorem taken {nbytes : ℕ} (hsmall : Small nbytes) {x : Heap × ℕ} {B : Span} {L' : List Span}
    (hB : Taken base S.heap L (nunits nbytes) x B L') :
    Owned base { S with heap := x.1, live := ⟨x.2, nbytes⟩ :: S.live, waiting := none } L' := by
  have hpos : 0 < B.len := by
    have := nunits_pos nbytes
    rw [hB.len]
    omega
  have hBmem : B.lo ∈ bytesAll L := by
    refine hB.bytes.subset (mem_append_left _ ?_)
    rw [mem_bytes]
    omega
  have hbounds := h.bounds_mem (x := B.lo) (by simp [hBmem])
  have hheader : header x.2 = B.lo := by rw [hB.pointer, header_add (by omega)]
  have hframe : ∀ l ∈ S.live, x.1.size (header l.ap) = S.heap.size (header l.ap) := by
    intro l hl
    refine hB.frame _ (fun he => h.disjoint hBmem (he ▸ h.header_mem hl)) (h.header_notMem hl)
  refine ⟨hB.freeList, ?_, h.nodup, h.ranges, fun l hl => ?_, fun _ hw => by cases hw⟩
  · have hblock : State.block
        { S with heap := x.1, live := ⟨x.2, nbytes⟩ :: S.live, waiting := none } ⟨x.2, nbytes⟩ = B := by
      simp only [State.block, hheader, hB.size, ← hB.len]
    rw [State.blocks, map_cons, hblock, map_block hframe, ← State.blocks]
    refine List.Perm.trans ?_ h.account
    have hcount := perm_iff_count.mp hB.bytes
    rw [perm_iff_count]
    intro y
    have := hcount y
    simp only [bytesAll_append, bytesAll_cons, count_append] at this ⊢
    omega
  · rw [mem_cons] at hl
    obtain rfl | hl := hl
    · simp only [hheader]
      exact ⟨hB.pointer, hsmall, hB.size⟩
    · simp only [hframe l hl]
      exact h.live l hl

/-- **The loop of `malloc`** ends with a block, or it asks for memory; not so if there is a
block that is large enough. -/
theorem mallocLoop {nbytes : ℕ} (hsmall : Small nbytes) :
    ∃ S', S.mallocLoop nbytes = .ok S' ∧ (∃ L', Owned base S' L') ∧
      ((∃ b ∈ L, 8 * nunits nbytes ≤ b.len) →
        S'.waiting = none ∧ ∃ ap, S'.live = ⟨ap, nbytes⟩ :: S.live) := by
  obtain ⟨q, hfollow, hcase⟩ := h.freeList.follow_found (nunits_pos nbytes) h.length_le
  rw [State.mallocLoop, hfollow]
  dsimp only
  split at hcase
  · rename_i hfit
    rw [if_pos hfit]
    obtain ⟨us, Q, P, vs, rfl, rfl, hlen⟩ := hcase
    obtain ⟨B, L', hB⟩ := h.freeList.take (nunits_pos nbytes) hlen
    exact ⟨_, rfl, ⟨L', h.taken hsmall hB⟩, fun _ => ⟨rfl, _, rfl⟩⟩
  · rename_i hfit
    rw [if_neg hfit]
    refine ⟨_, rfl, ⟨L, h.freeList, h.account, h.nodup, h.ranges, h.live, fun n hn => ?_⟩, ?_⟩
    · obtain rfl := Option.some.inj hn
      exact hsmall
    · rintro ⟨b, hb, hle⟩
      have := hcase b hb
      omega

theorem free {ap : ℕ} (hap : ∃ l ∈ S.live, l.ap = ap) :
    ∃ H', S.heap.free S.rounds ap = some H' ∧
      ∃ L', Owned base { S with heap := H', live := S.live.eraseP fun l => l.ap = ap } L' ∧
        ∃ b ∈ L', 8 * S.heap.size (header ap) ≤ b.len := by
  obtain ⟨l, hl, rfl⟩ := hap
  obtain ⟨k, ks, ks', -, hk, hlive, herase⟩ := exists_of_eraseP
    (p := fun k : Live => decide (k.ap = l.ap)) hl (by simp)
  have hkap : k.ap = l.ap := by simpa using hk
  have hklive : k ∈ S.live := by simp [hlive]
  obtain ⟨hpointer, -, -⟩ := h.live k hklive
  have hbounds := h.bounds (s := S.block k) (by simp [block_mem hklive])
    (by have := h.block_pos hklive; omega)
  have hnodup := h.nodup_blocks
  have hblocks : S.blocks = ks.map S.block ++ S.block k :: ks'.map S.block := by
    rw [State.blocks, hlive, map_append, map_cons]
  have hkpos := h.block_pos hklive
  have hself : ∀ {j}, j ∈ S.live → header j.ap ∈ (S.block j).bytes := by
    intro j hj
    have := h.block_pos hj
    rw [mem_bytes]
    exact ⟨le_refl _, Nat.lt_add_of_pos_right (by omega)⟩
  have hapart : ∀ b ∈ L, 0 < b.len →
      b.lo + b.len ≤ (S.block k).lo ∨ (S.block k).lo + (S.block k).len ≤ b.lo := by
    intro b hb hpos
    refine apart_of_disjoint (fun x hx hx' => ?_) hpos (by omega)
    exact h.disjoint (mem_flatMap_of_mem hb hx) (mem_flatMap_of_mem (block_mem hklive) hx')
  obtain ⟨H', L', hfree, hL', hbytes, ⟨b, hb, hle⟩, hframe⟩ := h.freeList.free (B := S.block k)
    (by omega) (by omega) hbounds.2 rfl hapart h.length_le
  -- the other blocks are elsewhere
  have hlive' : ∀ j ∈ ks ++ ks', j ∈ S.live := by
    intro j hj
    rw [hlive]
    obtain hj | hj := mem_append.mp hj
    · simp [hj]
    · simp [hj]
  have hothers : ∀ j ∈ ks ++ ks', header j.ap ≠ (S.block k).lo := by
    intro j hj he
    have hdisj := (pairwise_append.mp (nodup_bytesAll.mp h.nodup_blocks)).2.1
    rw [hblocks, pairwise_middle Span.disjoint_symm, pairwise_cons, ← map_append]
      at hdisj
    exact hdisj.1 _ (mem_map_of_mem hj) (hself hklive)
      (show (S.block k).lo ∈ _ from he ▸ hself (hlive' j hj))
  have hsame : ∀ j ∈ ks ++ ks', H'.size (header j.ap) = S.heap.size (header j.ap) := fun j hj =>
    hframe _ (hothers j hj) (h.header_notMem (hlive' j hj))
  refine ⟨H', ?_, L', ⟨hL', ?_, h.nodup, h.ranges, fun j hj => ?_, h.waiting⟩, b, hb, ?_⟩
  · rw [← hkap, hpointer]
    exact hfree
  · have hmap : State.blocks { S with heap := H', live := S.live.eraseP fun j => j.ap = l.ap } =
        (ks ++ ks').map S.block := by
      rw [State.blocks, herase]
      exact map_block hsame
    refine List.Perm.trans ?_ h.account
    rw [hmap, hblocks, perm_iff_count]
    intro x
    have hcount := perm_iff_count.mp hbytes x
    simp only [bytesAll_append, bytesAll_cons, map_append, count_append] at hcount ⊢
    omega
  · rw [herase] at hj
    simp only [hsame j hj]
    exact h.live j (hlive' j hj)
  · rw [← hkap]
    exact hle

theorem fresh {p nu : ℕ} (hpos : 0 < nu) (hle : nu ≤ 2 ^ 28) (hbase : base + 8 ≤ p)
    (habove : ∀ r ∈ S.ranges, r.lo + r.len ≤ p) (hbelow : p + 8 * nu < 2 ^ 32) :
    Owned base (S.handOut p nu) L := by
  have hlt : ∀ {x}, x ∈ bytesAll S.ranges → x < p := by
    intro x hx
    obtain ⟨r, hr, -, hxr⟩ := mem_bytesAll.mp hx
    exact hxr.trans_le (habove r hr)
  have hL : ∀ b ∈ L, b.lo ≠ p := by
    intro b hb
    obtain rfl | ⟨-, hblen⟩ := h.freeList.above b hb
    · simp only
      omega
    · refine (hlt (h.account.mem_iff.mp (mem_bytesAll.mpr ⟨b, by simp [hb], le_refl _, ?_⟩))).ne
      omega
  have hheader : header (p + 8) = p := header_add (by omega)
  have hsize : (S.handOut p nu).heap.size p = nu := update_self ..
  have hsmall : Small (8 * (nu - 1)) := by
    rw [Small]
    omega
  have hunits : nunits (8 * (nu - 1)) = nu := by
    rw [hsmall.nunits]
    omega
  have hframe : ∀ l ∈ S.live,
      (S.handOut p nu).heap.size (header l.ap) = S.heap.size (header l.ap) := by
    intro l hl
    refine update_of_ne (hlt (h.account.mem_iff.mp ?_)).ne ..
    simp [h.header_mem hl]
  refine ⟨h.freeList.congr rfl (fun _ _ => rfl) fun b hb => update_of_ne (hL b hb) ..,
    ?_, ?_, fun r hr => ?_, fun l hl => ?_, h.waiting⟩
  · have hblocks : (S.handOut p nu).blocks = ⟨p, 8 * nu⟩ :: S.blocks := by
      rw [State.blocks, State.handOut, map_cons, ← State.handOut, map_block hframe, State.block,
        hheader, hsize, State.blocks]
    rw [hblocks]
    refine List.Perm.trans ?_ (h.account.append_left (Span.bytes ⟨p, 8 * nu⟩))
    rw [perm_iff_count]
    intro x
    simp only [bytesAll_append, bytesAll_cons, count_append]
    omega
  · refine nodup_append.mpr ⟨nodup_range' .., h.nodup, fun x hx y hy he => ?_⟩
    have hxp := (mem_bytes.mp hx).1
    have := hlt hy
    simp only at hxp
    omega
  · obtain rfl | hr := mem_cons.mp hr
    · exact ⟨hbase, hbelow⟩
    · exact h.ranges r hr
  · obtain rfl | hl := mem_cons.mp hl
    · rw [hheader, hsize, hunits]
      exact ⟨rfl, hsmall, rfl⟩
    · rw [hframe l hl]
      exact h.live l hl

theorem morecore {nbytes p : ℕ} (hsmall : Small nbytes) (hbase : base + 8 ≤ p)
    (habove : ∀ r ∈ S.ranges, r.lo + r.len ≤ p) (hbelow : p + moreBytes (nunits nbytes) < 2 ^ 32) :
    ∃ S', S.morecore (nunits nbytes) p = .ok S' ∧ S'.live = S.live ∧
      ∃ L', Owned base S' L' ∧ ∃ b ∈ L', 8 * nunits nbytes ≤ b.len := by
  have hnu := hsmall.moreUnits_le
  have hle := le_moreUnits (nunits nbytes)
  have hpos := nunits_pos nbytes
  rw [hsmall.moreBytes] at hbelow
  rw [State.morecore, hsmall.moreBytes]
  obtain ⟨nu, hnu'⟩ : ∃ nu, nu = moreUnits (nunits nbytes) := ⟨_, rfl⟩
  rw [← hnu'] at hnu hle hbelow ⊢
  rw [show plus p 1 = p + 8 from plus_eq (by omega)]
  obtain ⟨H', hfree, L', hL', b, hb, hblen⟩ := (h.fresh (by omega) hnu hbase habove hbelow).free
    ⟨⟨p + 8, 8 * (nu - 1)⟩, mem_cons_self .., rfl⟩
  have hlive : (S.handOut p nu).live.eraseP (fun l => l.ap = p + 8) = S.live := by
    simp [State.handOut]
  have hsize : (S.handOut p nu).heap.size (header (p + 8)) = nu := by
    rw [header_add (by omega)]
    exact update_self ..
  have hrounds : (S.handOut p nu).rounds = (S.gain p nu (8 * nu)).rounds := by
    simp only [State.rounds, State.handOut]
  rw [hlive] at hL'
  rw [hrounds, State.handOut] at hfree
  refine ⟨{ S.gain p nu (8 * nu) with heap := H' }, ?_, rfl, L', hL', b, hb, ?_⟩
  · simp only [State.free, hfree]
  · rw [hsize] at hblen
    omega

theorem store {ptr size : ℕ → ℕ} (hstore : Allowed base S (.store ptr size)) :
    Owned base { S with heap := { S.heap with ptr := ptr, size := size } } L := by
  -- the bytes that it may use are in its blocks, after their headers
  have husable : ∀ l ∈ S.live, ∀ x ∈ (S.usable l).bytes,
      x ∈ (S.block l).bytes ∧ header l.ap + 8 ≤ x := by
    intro l hl x hx
    have hpos := h.block_pos hl
    have hap := (h.live l hl).1
    simp only [State.usable, State.block, mem_bytes] at hx hpos ⊢
    omega
  have hfree : ∀ b ∈ L, ptr b.lo = S.heap.ptr b.lo ∧ size b.lo = S.heap.size b.lo := by
    intro b hb
    refine hstore b.lo fun l hl x hlo hlt hx => ?_
    obtain ⟨hxl, -⟩ := husable l hl x hx
    have hmem : x ∈ bytesAll S.blocks := mem_flatMap_of_mem (block_mem hl) hxl
    obtain rfl | ⟨-, hpos⟩ := h.freeList.above b hb
    · have := h.bounds_mem (x := x) (by simp [hmem])
      simp only at hlt
      omega
    · have hsize := h.freeList.size b hb
      exact h.disjoint (mem_bytesAll.mpr ⟨b, hb, hlo, by omega⟩) hmem
  have hused : ∀ l ∈ S.live, size (header l.ap) = S.heap.size (header l.ap) := by
    intro l hl
    refine (hstore _ fun k hk x hlo hlt hx => ?_).2
    obtain ⟨hxk, hafter⟩ := husable k hk x hx
    have hxl : x ∈ (S.block l).bytes := by
      have hpos := h.block_pos hl
      rw [mem_bytes]
      exact ⟨hlo, hlt.trans_le (Nat.add_le_add_left hpos _)⟩
    have hdisj := (pairwise_append.mp (nodup_bytesAll.mp h.nodup_blocks)).2.1
    by_cases he : S.block k = S.block l
    · have : header k.ap = header l.ap := congrArg lo he
      omega
    · exact hdisj.forall (block_mem hk) (block_mem hl) he hxk hxl
  refine ⟨h.freeList.congr rfl (fun b hb => (hfree b hb).1) fun b hb => (hfree b hb).2, ?_, h.nodup,
    h.ranges, fun l hl => ?_, h.waiting⟩
  · rw [State.blocks, map_block hused]
    exact h.account
  · simp only [hused l hl]
    exact h.live l hl

theorem giveUp : Owned base { S with waiting := none } L :=
  ⟨h.freeList, h.account, h.nodup, h.ranges, h.live, fun _ hw => by cases hw⟩

end

end Owned

/-! ## All calls -/

variable {base : ℕ} {S : State}

theorem Untouched.start (h : Untouched S) (hbase : base < 2 ^ 32) :
    Owned base { S with heap := S.heap.start base } [⟨base, 0⟩] := by
  refine ⟨⟨⟨by simp, by simp, by simpa using hbase, by simp⟩, ?_, ?_, ?_⟩, ?_, ?_, ?_, ?_, ?_⟩
  · simp [Heap.start, h.freep]
  · simp [Heap.start, h.freep, Circle, Leads]
  · simp [Heap.start, h.freep]
  · simp [State.blocks, h.live, h.ranges, bytes_eq_nil]
  · simp [h.ranges]
  · simp [h.ranges]
  · simp [h.live]
  · simp [h.waiting]

/-- Nothing has happened, or the memory is divided. -/
def Whole (base : ℕ) (S : State) : Prop := Untouched S ∨ ∃ L, Owned base S L

theorem Whole.start (h : Whole base S) (hpos : 0 < base) (hbase : base < 2 ^ 32) :
    ∃ L, Owned base { S with heap := S.heap.start base } L := by
  obtain h | ⟨L, h⟩ := h
  · exact ⟨_, h.start hbase⟩
  · refine ⟨L, ?_⟩
    obtain ⟨b, hb, hlo⟩ := mem_map.mp h.freeList.freep
    have := h.freeList.le_lo hb
    rwa [Heap.start, if_neg (by omega)]

theorem Whole.step (h : Whole base S) (hpos : 0 < base) (hbase : base < 2 ^ 32) {a : Act}
    (ha : Allowed base S a) {r : Except Fault State} (hs : step base S a = some r) :
    ∃ S', r = .ok S' ∧ Whole base S' := by
  cases a with
  | malloc nbytes =>
    simp only [Umalloc.step] at hs
    split at hs
    · obtain ⟨L, hL⟩ := h.start hpos hbase
      obtain ⟨S', hS', hL', -⟩ := hL.mallocLoop ha
      obtain rfl := Option.some.inj hs
      exact ⟨S', hS', .inr hL'⟩
    · cases hs
  | sbrk p =>
    obtain h | ⟨L, h⟩ := h
    · simp [Umalloc.step, h.waiting] at hs
    cases hw : S.waiting with
    | none => simp [Umalloc.step, hw] at hs
    | some nbytes =>
      have hsmall := h.waiting nbytes hw
      cases p with
      | none =>
        simp only [Umalloc.step, hw] at hs
        obtain rfl := Option.some.inj hs
        exact ⟨_, rfl, .inr ⟨L, h.giveUp⟩⟩
      | some p =>
        obtain ⟨S₁, hS₁, -, L₁, hL₁, -⟩ :=
          h.morecore hsmall ha.1 ha.2.1 (ha.2.2 nbytes hw)
        obtain ⟨S', hS', hL', -⟩ := hL₁.mallocLoop hsmall
        simp only [Umalloc.step, hw, hS₁] at hs
        obtain rfl := Option.some.inj hs
        exact ⟨S', hS', .inr hL'⟩
  | free ap =>
    obtain h | ⟨L, h⟩ := h
    · obtain ⟨l, hl, -⟩ := ha
      simp [h.live] at hl
    · simp only [Umalloc.step] at hs
      split at hs
      · obtain ⟨H', hfree, L', hL', -⟩ := h.free ha
        simp only [State.free, hfree] at hs
        obtain rfl := Option.some.inj hs
        exact ⟨_, rfl, .inr ⟨L', hL'⟩⟩
      · cases hs
  | store ptr size =>
    simp only [Umalloc.step] at hs
    split at hs
    · obtain rfl := Option.some.inj hs
      obtain h | ⟨L, h⟩ := h
      · exact ⟨_, rfl, .inl ⟨h.freep, h.waiting, h.live, h.ranges⟩⟩
      · exact ⟨_, rfl, .inr ⟨L, h.store ha⟩⟩
    · cases hs

/-- **The heap is whole.** -/
structure Integrity (base : ℕ) (S : State) : Prop where
  /-- Once `malloc` has been called the free list is a circle, sorted, with `base` on it and
  without abutting blocks; its blocks and those in use are disjoint, and what `sbrk` has
  returned is what they consist of. -/
  blocks : Untouched S ∨ ∃ L, FreeList base S.heap L ∧
    (L ++ S.blocks).Pairwise (fun s t => s.bytes.Disjoint t.bytes) ∧
    ∀ x, x ∈ bytesAll (L ++ S.blocks) ↔ x ∈ bytesAll S.ranges
  /-- Every block is as large as it was asked for, after its header. -/
  usable : ∀ l ∈ S.live, l.ap = (S.block l).lo + 8 ∧ l.nbytes + 8 ≤ (S.block l).len
  /-- All loops end. -/
  ends : ∀ a, Allowed base S a → ∀ e, step base S a ≠ some (.error e)
  /-- `malloc` asks for memory once. -/
  answered : ∀ nbytes p, S.waiting = some nbytes → Allowed base S (.sbrk (some p)) →
    ∃ S' ap, step base S (.sbrk (some p)) = some (.ok S') ∧ S'.waiting = none ∧
      S'.live = ⟨ap, nbytes⟩ :: S.live

theorem Whole.integrity (h : Whole base S) (hpos : 0 < base) (hbase : base < 2 ^ 32) :
    Integrity base S where
  blocks := by
    obtain h | ⟨L, h⟩ := h
    · exact .inl h
    · exact .inr ⟨L, h.freeList, nodup_bytesAll.mp h.nodup_blocks, fun x => h.account.mem_iff⟩
  usable := by
    obtain h | ⟨L, h⟩ := h
    · simp [h.live]
    · intro l hl
      obtain ⟨hap, hsmall, hsize⟩ := h.live l hl
      refine ⟨hap, ?_⟩
      rw [State.block, hsize, hsmall.nunits]
      show l.nbytes + 8 ≤ 8 * ((l.nbytes + 7) / 8 + 1)
      omega
  ends a ha e hs := by
    obtain ⟨S', hS', -⟩ := h.step hpos hbase ha hs
    cases hS'
  answered nbytes p hw ha := by
    obtain h | ⟨L, h⟩ := h
    · simp [h.waiting] at hw
    · have hsmall := h.waiting nbytes hw
      obtain ⟨S₁, hS₁, hlive, L₁, hL₁, hroom⟩ :=
        h.morecore hsmall ha.1 ha.2.1 (ha.2.2 nbytes hw)
      obtain ⟨S', hS', -, hdone⟩ := hL₁.mallocLoop hsmall
      obtain ⟨hnone, ap, hap⟩ := hdone hroom
      refine ⟨S', ap, ?_, hnone, hlive ▸ hap⟩
      simp only [Umalloc.step, hw, hS₁, hS']

/-- **The allocator keeps the heap whole**, whatever is allocated, freed and stored, and
whatever memory `sbrk` returns. -/
theorem allocator_integrity (hpos : 0 < base) (hbase : base < 2 ^ 32)
    (h : Reach (step base) (Allowed base) Untouched S) : Integrity base S := by
  have hwhole : Whole base S := by
    refine Reach.invariant (I := Whole base) (fun _ h => .inl h) (fun S a S' hS ha hs => ?_) h
    obtain ⟨S'', hS'', hwhole⟩ := hS.step hpos hbase ha hs
    obtain rfl := Except.ok.inj hS''
    exact hwhole
  exact hwhole.integrity hpos hbase

/-- A test of what is asked, for programs that store nothing. -/
def allowedTest (base : ℕ) (S : State) : Act → Bool
  | .malloc nbytes => (nbytes + 7) / 8 * 8 < 2 ^ 31
  | .sbrk none => true
  | .sbrk (some p) =>
    base + 8 ≤ p && S.ranges.all (fun r => r.lo + r.len ≤ p) &&
      S.waiting.all fun nbytes => p + moreBytes (nunits nbytes) < 2 ^ 32
  | .free ap => S.live.any fun l => l.ap = ap
  | .store _ _ => false

theorem allowed_of_test {a : Act} (h : allowedTest base S a = true) : Allowed base S a := by
  cases a with
  | malloc nbytes =>
    rw [allowedTest, decide_eq_true_eq] at h
    exact h
  | sbrk p =>
    cases p with
    | none => trivial
    | some p =>
      simp only [allowedTest, Bool.and_eq_true, decide_eq_true_eq, all_eq_true] at h
      refine ⟨h.1.1, h.1.2, fun nbytes hw => ?_⟩
      have := h.2
      rw [hw] at this
      simpa using this
  | free ap =>
    obtain ⟨l, hl, hap⟩ := any_eq_true.mp h
    exact ⟨l, hl, of_decide_eq_true hap⟩
  | store ptr size => cases h

/-- Three blocks are taken from the end of what `sbrk` returns.  Freeing the last and the first
of them leaves a hole, which freeing the second closes. -/
def threeBlocks : List Act :=
  [.malloc 10, .sbrk (some 0x4000), .malloc 20, .malloc 1, .free 0xbfc0, .free 0xbff0, .free 0xbfd0]

theorem allocator_integrity_threeBlocks :
    ∃ S, Reach (step 0x2000) (Allowed 0x2000) Untouched S ∧ Integrity 0x2000 S ∧
      S.live = [] ∧ S.heap.ptr 0x2000 = 0x4000 ∧ S.heap.size 0x4000 = 4096 := by
  have he : endsIn (step 0x2000) ⟨⟨fun _ => 0, fun _ => 0, 0⟩, none, [], []⟩ threeBlocks (fun S =>
      S.live = [] ∧ S.heap.ptr 0x2000 = 0x4000 ∧ S.heap.size 0x4000 = 4096) = true := by
    decide +kernel
  have hm : Meets (step 0x2000) (fun S a => allowedTest 0x2000 S a = true)
      ⟨⟨fun _ => 0, fun _ => 0, 0⟩, none, [], []⟩ threeBlocks := by
    decide +kernel
  have hstart : Untouched ⟨⟨fun _ => 0, fun _ => 0, 0⟩, none, [], []⟩ := ⟨rfl, rfl, rfl, rfl⟩
  obtain ⟨S, hS, hend⟩ := Reach.of_endsIn hstart he hm
  have hS' := hS.weaken fun _ _ => allowed_of_test
  exact ⟨S, hS', allocator_integrity (by decide) (by decide) hS', by simpa using hend⟩

end Xv6.Umalloc
