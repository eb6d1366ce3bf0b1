import Xv6.Umalloc.Basic

/-!
# The free list

`FreeList base H L` says that the heap's free list consists of the blocks `L`: it is circular,
sorted by address, with `base` on it, and any two blocks on it are apart.  `free` puts a block
in (`FreeList.free`) and `malloc` takes one out (`FreeList.take`); what they do to the list is
said of its bytes.

`free` is taken apart at `Halfway`, where the block has been joined to what is above it, and
the block below does not know yet.
-/

namespace Xv6.Umalloc

open Function List Span

/-- Blocks as they can be on a free list. -/
structure Blocks (base : ℕ) (L : List Span) : Prop where
  base_mem : ⟨base, 0⟩ ∈ L
  above : ∀ b ∈ L, b = ⟨base, 0⟩ ∨ base < b.lo ∧ 0 < b.len
  below : ∀ b ∈ L, b.lo + b.len < 2 ^ 32
  /-- They are sorted, and no two of them abut. -/
  sorted : L.Pairwise fun b c => b.lo + b.len < c.lo

/-- **The free list consists of `L`.** -/
structure FreeList (base : ℕ) (H : Heap) (L : List Span) : Prop extends Blocks base L where
  size : ∀ b ∈ L, b.len = 8 * H.size b.lo
  circle : Circle H.ptr (L.map lo)
  freep : H.freep ∈ L.map lo

theorem plus_eq {p n : ℕ} (h : p + 8 * n < 2 ^ 32) : plus p n = p + 8 * n := Nat.mod_eq_of_lt h

/-! ## Blocks -/

namespace Blocks

variable {base : ℕ} {L L' us vs : List Span} {P Q B : Span}

theorem le_lo (h : Blocks base L) {b : Span} (hb : b ∈ L) : base ≤ b.lo := by
  obtain rfl | ⟨hlt, -⟩ := h.above b hb
  · exact le_refl _
  · exact hlt.le

theorem lt_lo (h : Blocks base L) {b : Span} (hb : b ∈ L) (hpos : 0 < b.len) : base < b.lo := by
  obtain rfl | ⟨hlt, -⟩ := h.above b hb
  · cases hpos
  · exact hlt

theorem eq_cons (h : Blocks base L) : ∃ bs, L = ⟨base, 0⟩ :: bs := by
  obtain ⟨us, vs, rfl⟩ := append_of_mem h.base_mem
  cases us with
  | nil => exact ⟨vs, rfl⟩
  | cons b us =>
    have hlt := (pairwise_cons.mp h.sorted).1 ⟨base, 0⟩ (by simp)
    have hle := h.le_lo (b := b) (by simp)
    simp only at hlt
    omega

theorem lo_lt (h : Blocks base (us ++ P :: vs)) :
    (∀ b ∈ us, b.lo + b.len < P.lo) ∧ ∀ c ∈ vs, P.lo + P.len < c.lo := by
  obtain ⟨-, hP, hus⟩ := pairwise_append.mp h.sorted
  exact ⟨fun b hb => hus b hb P (by simp), (pairwise_cons.mp hP).1⟩

theorem nodup (h : Blocks base L) : (L.map lo).Nodup := by
  refine pairwise_map.mpr (h.sorted.imp fun hlt he => ?_)
  omega

theorem sublist (h : Blocks base L) (hs : L'.Sublist L) (hb : ⟨base, 0⟩ ∈ L') : Blocks base L' :=
  ⟨hb, fun b hm => h.above b (hs.subset hm), fun b hm => h.below b (hs.subset hm),
    h.sorted.sublist hs⟩

theorem insert (h : Blocks base (us ++ P :: vs)) (hbase : base < B.lo) (hpos : 0 < B.len)
    (hbelow : B.lo + B.len < 2 ^ 32) (hlower : P.lo + P.len < B.lo)
    (hupper : ∀ c ∈ vs, B.lo + B.len < c.lo) : Blocks base (us ++ P :: B :: vs) := by
  have hmem : ∀ b ∈ us ++ P :: B :: vs, b = B ∨ b ∈ us ++ P :: vs := by
    intro b hb
    simp only [mem_append, mem_cons] at hb ⊢
    tauto
  obtain ⟨hus, hP, hcross⟩ := pairwise_append.mp h.sorted
  obtain ⟨hPvs, hvs⟩ := pairwise_cons.mp hP
  refine ⟨?_, fun b hb => ?_, fun b hb => ?_, pairwise_append.mpr ⟨hus, ?_, ?_⟩⟩
  · have := h.base_mem
    simp only [mem_append, mem_cons] at this ⊢
    tauto
  · obtain rfl | hb := hmem b hb
    · exact .inr ⟨hbase, hpos⟩
    · exact h.above b hb
  · obtain rfl | hb := hmem b hb
    · exact hbelow
    · exact h.below b hb
  · refine pairwise_cons.mpr ⟨fun c hc => ?_, pairwise_cons.mpr ⟨hupper, hvs⟩⟩
    rw [mem_cons] at hc
    obtain rfl | hc := hc
    · exact hlower
    · exact hPvs c hc
  · intro b hb c hc
    have hbP := hcross b hb P (by simp)
    rw [mem_cons, mem_cons] at hc
    obtain rfl | rfl | hc := hc
    · exact hbP
    · omega
    · exact hcross b hb c (by simp [hc])

theorem resize (h : Blocks base (us ++ P :: vs)) (hP : base < P.lo) {len : ℕ} (hpos : 0 < len)
    (hbelow : P.lo + len < 2 ^ 32) (hupper : ∀ c ∈ vs, P.lo + len < c.lo) :
    Blocks base (us ++ ⟨P.lo, len⟩ :: vs) := by
  have hne : ⟨base, 0⟩ ≠ P := by
    rintro rfl
    exact lt_irrefl _ hP
  obtain ⟨hus, hcons, hcross⟩ := pairwise_append.mp h.sorted
  have hrest : ∀ {p : Span → Prop}, (∀ b ∈ us ++ P :: vs, p b) → p ⟨P.lo, len⟩ →
      ∀ b ∈ us ++ ⟨P.lo, len⟩ :: vs, p b := by
    intro p hall hnew b hb
    rw [mem_append, mem_cons] at hb
    obtain hb | rfl | hb := hb
    · exact hall b (by simp [hb])
    · exact hnew
    · exact hall b (by simp [hb])
  refine ⟨?_, hrest h.above (.inr ⟨hP, hpos⟩), hrest h.below hbelow,
    pairwise_append.mpr ⟨hus, pairwise_cons.mpr ⟨hupper, ?_⟩, fun b hb c hc => ?_⟩⟩
  · have := h.base_mem
    simp only [mem_append, mem_cons, hne, false_or] at this ⊢
    tauto
  · exact (pairwise_cons.mp hcons).2
  · rw [mem_cons] at hc
    obtain rfl | hc := hc
    · exact hcross b hb P (by simp)
    · exact hcross b hb c (by simp [hc])

end Blocks

namespace FreeList

variable {base : ℕ} {H : Heap} {L us vs : List Span} {P Q B : Span}

theorem leads (h : FreeList base H (us ++ P :: vs)) :
    Leads H.ptr P.lo ((vs ++ us).map lo) P.lo := by
  have hc := h.circle
  rwa [map_append, map_cons, circle_append, ← map_append] at hc

theorem ptr_last (h : FreeList base H (us ++ [P])) : H.ptr P.lo = base := by
  rw [h.leads.next_eq_head]
  obtain ⟨bs, hbs⟩ := h.eq_cons
  cases us with
  | nil | cons =>
    obtain ⟨rfl, -⟩ := List.cons.inj hbs
    rfl

theorem ptr_cons (h : FreeList base H (us ++ P :: Q :: vs)) : H.ptr P.lo = Q.lo :=
  h.leads.1

theorem congr (h : FreeList base H L) {H' : Heap} (hfreep : H'.freep = H.freep)
    (hptr : ∀ b ∈ L, H'.ptr b.lo = H.ptr b.lo) (hsize : ∀ b ∈ L, H'.size b.lo = H.size b.lo) :
    FreeList base H' L := by
  refine ⟨h.toBlocks, fun b hb => ?_, ?_, hfreep ▸ h.freep⟩
  · rw [hsize b hb]
    exact h.size b hb
  · obtain ⟨bs, rfl⟩ := h.eq_cons
    refine Leads.restart h.circle (hptr ⟨base, 0⟩ (by simp)) fun x hx => ?_
    obtain ⟨b, hb, rfl⟩ := mem_map.mp hx
    exact hptr b (by simp [hb])

/-! ## Looking for the place -/

theorem slot_iff (h : FreeList base H (us ++ P :: vs)) {bp : ℕ} (hbp : base < bp)
    (hne : ∀ b ∈ us ++ P :: vs, b.lo ≠ bp) :
    H.slot bp P.lo = true ↔ P.lo < bp ∧ ∀ c ∈ vs, bp < c.lo := by
  have hP := h.le_lo (b := P) (by simp)
  cases vs with
  | nil =>
    rw [Heap.slot, h.ptr_last]
    simp
    omega
  | cons Q vs =>
    have hlt := h.lo_lt.2 Q (by simp)
    have hQ : ∀ c ∈ Q :: vs, Q.lo ≤ c.lo := by
      intro c hc
      rw [mem_cons] at hc
      obtain rfl | hc := hc
      · exact le_refl _
      · have := (append_cons us P (Q :: vs) ▸ h).lo_lt.2 c hc
        omega
    have hall : (∀ c ∈ Q :: vs, bp < c.lo) ↔ bp < Q.lo :=
      ⟨fun hc => hc Q (by simp), fun hc c hm => hc.trans_le (hQ c hm)⟩
    rw [hall, Heap.slot, h.ptr_cons]
    simp
    omega

theorem follow_slot (h : FreeList base H L) {bp : ℕ} (hbp : base < bp)
    (hne : ∀ b ∈ L, b.lo ≠ bp) {n : ℕ} (hn : L.length ≤ n) :
    ∃ us P vs, L = us ++ P :: vs ∧ P.lo < bp ∧ (∀ c ∈ vs, bp < c.lo) ∧
      follow H.ptr (H.slot bp) n H.freep = some P.lo := by
  -- the last block below `bp` is a place where the loop would be left
  have hex : ∃ us P vs, L = us ++ P :: vs ∧ P.lo < bp ∧ ∀ c ∈ vs, bp < c.lo := by
    have hfind : (L.reverse.find? fun b => b.lo < bp).isSome := by
      rw [find?_isSome]
      exact ⟨_, mem_reverse.mpr h.base_mem, by simpa using hbp⟩
    obtain ⟨P, hP⟩ := Option.isSome_iff_exists.mp hfind
    obtain ⟨hlt, as, bs, hsplit, has⟩ := find?_eq_some_iff_append.mp hP
    refine ⟨bs.reverse, P, as.reverse, ?_, by simpa using hlt, fun c hc => ?_⟩
    · rw [← reverse_reverse L, hsplit]
      simp
    · have hge := has c (mem_reverse.mp hc)
      have hcL : c ∈ L := by
        rw [← mem_reverse, hsplit]
        simp [mem_reverse.mp hc]
      have := hne c hcL
      simp at hge
      omega
  obtain ⟨F, hF, hlo⟩ := mem_map.mp h.freep
  obtain ⟨us, vs, rfl⟩ := append_of_mem hF
  have hmem : ∀ q, q ∈ F.lo :: (vs ++ us).map lo ↔ q ∈ (us ++ F :: vs).map lo := by
    intro q
    simp only [mem_cons, map_append, mem_append, map_cons]
    tauto
  have hstop : ∃ q ∈ F.lo :: (vs ++ us).map lo, H.slot bp q = true := by
    obtain ⟨us', P, vs', hL, hlt, habove⟩ := hex
    refine ⟨P.lo, (hmem _).mpr (mem_map_of_mem (by simp [hL])), ?_⟩
    rw [hL] at h hne
    exact (h.slot_iff hbp hne).mpr ⟨hlt, habove⟩
  have hfollow := h.leads.follow hstop (n := n) (by simp at hn ⊢; omega)
  obtain ⟨q, hq⟩ := Option.isSome_iff_exists.mp (find?_isSome.mpr hstop)
  rw [hq, hlo] at hfollow
  obtain ⟨P, hP, rfl⟩ := mem_map.mp ((hmem q).mp (mem_of_find?_eq_some hq))
  obtain ⟨us', vs', hL⟩ := append_of_mem hP
  rw [hL] at h hne ⊢
  have hslot := (h.slot_iff hbp hne).mp (find?_some hq)
  exact ⟨us', P, vs', rfl, hslot.1, hslot.2, hfollow⟩

end FreeList

/-! ## Putting a block in -/

/-- The block `B` can be put in between `us ++ [P]` and `vs`. -/
structure Fits (base : ℕ) (P B : Span) (vs : List Span) : Prop where
  base_lt : base < B.lo
  pos : 0 < B.len
  below : B.lo + B.len < 2 ^ 32
  lower : P.lo + P.len ≤ B.lo
  upper : ∀ c ∈ vs, B.lo + B.len ≤ c.lo

theorem Fits.lo_lt {base : ℕ} {P B : Span} {us vs : List Span} (hB : Fits base P B vs)
    (h : Blocks base (us ++ P :: vs)) :
    (∀ b ∈ us, b.lo < B.lo) ∧ P.lo < B.lo ∧ ∀ c ∈ vs, B.lo < c.lo := by
  have hlower := hB.lower
  refine ⟨fun b hb => ?_, ?_, fun c hc => ?_⟩
  · have := h.lo_lt.1 b hb
    omega
  · obtain rfl | ⟨-, hpos⟩ := h.above P (by simp)
    · exact hB.base_lt
    · omega
  · have := hB.upper c hc
    have := hB.pos
    omega

/-- The block `B` points to what is above it, and nothing there abuts on it; `P` has not
changed. -/
structure Halfway (base : ℕ) (H : Heap) (us : List Span) (P B : Span) (vs : List Span) : Prop
    extends Fits base P B vs where
  blocks : Blocks base (us ++ P :: vs)
  apart : ∀ c ∈ vs, B.lo + B.len < c.lo
  size : ∀ b ∈ us ++ P :: B :: vs, b.len = 8 * H.size b.lo
  leads : Leads H.ptr B.lo ((vs ++ us).map lo) P.lo

namespace FreeList

variable {base : ℕ} {H : Heap} {L us vs : List Span} {P Q B : Span}

theorem joinUpper (h : FreeList base H (us ++ P :: vs)) (hB : Fits base P B vs)
    (hsize : B.len = 8 * H.size B.lo) :
    ∃ len vs', B.len ≤ len ∧ Halfway base (H.joinUpper B.lo P.lo) us P ⟨B.lo, len⟩ vs' ∧
      bytes ⟨B.lo, len⟩ ++ bytesAll vs' = B.bytes ++ bytesAll vs ∧
      ∀ a, a ≠ B.lo → (H.joinUpper B.lo P.lo).size a = H.size a := by
  obtain ⟨hus, hP, hvs⟩ := hB.lo_lt h.toBlocks
  have hne : ∀ b ∈ us ++ P :: vs, b.lo ≠ B.lo := by
    intro b hb
    rw [mem_append, mem_cons] at hb
    obtain hb | rfl | hb := hb
    · exact (hus b hb).ne
    · exact hP.ne
    · exact (hvs b hb).ne'
  have hend : plus B.lo (H.size B.lo) = B.lo + B.len := by
    rw [plus_eq (hsize ▸ hB.below), hsize]
  rw [Heap.joinUpper, hend]
  by_cases hjoin : B.lo + B.len = H.ptr P.lo
  · rw [if_pos hjoin]
    cases vs with
    | nil =>
      rw [h.ptr_last] at hjoin
      have := hB.base_lt
      omega
    | cons Q vs =>
      rw [h.ptr_cons] at hjoin ⊢
      have hQsize := h.size Q (by simp)
      have hQbelow := h.below Q (by simp)
      have hlt := (append_cons us P (Q :: vs) ▸ h).lo_lt.2
      have hsub : (us ++ P :: vs).Sublist (us ++ P :: Q :: vs) :=
        (List.Sublist.refl us).append ((sublist_cons_self Q vs).cons_cons P)
      have hnew : (H.size B.lo + H.size Q.lo) % 2 ^ 32 = H.size B.lo + H.size Q.lo :=
        Nat.mod_eq_of_lt (by omega)
      refine ⟨B.len + Q.len, vs, Nat.le_add_right .., ⟨⟨hB.base_lt, ?_, ?_, hB.lower, ?_⟩,
        h.toBlocks.sublist hsub ?_, ?_, fun b hb => ?_, ?_⟩, ?_,
        fun a ha => update_of_ne ha ..⟩
      · show 0 < B.len + Q.len
        have := hB.pos
        omega
      · show B.lo + (B.len + Q.len) < 2 ^ 32
        omega
      · show ∀ c ∈ vs, B.lo + (B.len + Q.len) ≤ c.lo
        intro c hc
        have := hlt c hc
        omega
      · have hbase := h.base_mem
        have hQ : Q ≠ ⟨base, 0⟩ := by
          rintro rfl
          have := hB.base_lt
          simp only at hjoin
          omega
        simpa [Ne.symm hQ] using hbase
      · show ∀ c ∈ vs, B.lo + (B.len + Q.len) < c.lo
        intro c hc
        have := hlt c hc
        omega
      · dsimp only
        rw [mem_append, mem_cons, mem_cons] at hb
        obtain hb | rfl | rfl | hb := hb
        · rw [update_of_ne (hus b hb).ne]
          exact h.size b (by simp [hb])
        · rw [update_of_ne hP.ne]
          exact h.size b (by simp)
        · rw [update_self, hnew]
          show B.len + Q.len = _
          omega
        · rw [update_of_ne (hne b (by simp [hb]))]
          exact h.size b (by simp [hb])
      · refine h.leads.2.restart (update_self ..) (forall_mem_map.mpr fun b hb => update_of_ne (hne b ?_) ..)
        obtain hb | hb := mem_append.mp hb <;> simp [hb]
      · rw [← bytes_append hjoin, append_assoc, bytesAll_cons]
  · rw [if_neg hjoin]
    refine ⟨B.len, vs, le_refl _, ⟨hB, h.toBlocks, fun c hc => ?_, fun b hb => ?_, ?_⟩, rfl,
      fun a _ => rfl⟩
    · -- the first block above does not abut, and the others are above that one
      cases vs with
      | nil => cases hc
      | cons Q vs =>
        rw [h.ptr_cons] at hjoin
        have hQ := hB.upper Q (by simp)
        rw [mem_cons] at hc
        obtain rfl | hc := hc
        · exact lt_of_le_of_ne hQ hjoin
        · show B.lo + B.len < c.lo
          have := (append_cons us P (Q :: vs) ▸ h).lo_lt.2 c hc
          omega
    · rw [mem_append, mem_cons, mem_cons] at hb
      obtain hb | rfl | rfl | hb := hb
      · exact h.size b (by simp [hb])
      · exact h.size b (by simp)
      · exact hsize
      · exact h.size b (by simp [hb])
    · refine h.leads.restart (update_self ..) (forall_mem_map.mpr fun b hb => update_of_ne (hne b ?_) ..)
      obtain hb | hb := mem_append.mp hb <;> simp [hb]

end FreeList

theorem Halfway.joinLower {base : ℕ} {H : Heap} {us vs : List Span} {P B : Span}
    (h : Halfway base H us P B vs) :
    ∃ L, FreeList base { H.joinLower B.lo P.lo with freep := P.lo } L ∧
      (bytesAll L).Perm (B.bytes ++ bytesAll (us ++ P :: vs)) ∧ (∃ b ∈ L, B.len ≤ b.len) ∧
      ∀ a, a ≠ P.lo → (H.joinLower B.lo P.lo).size a = H.size a := by
  obtain ⟨hus, hP, hvs⟩ := h.toFits.lo_lt h.blocks
  have hPsize := h.size P (by simp)
  have hBsize := h.size B (by simp)
  have hend : plus P.lo (H.size P.lo) = P.lo + P.len := by
    rw [plus_eq (hPsize ▸ h.blocks.below P (by simp)), hPsize]
  have hne : ∀ b ∈ us ++ vs, b.lo ≠ P.lo := by
    intro b hb
    obtain hb | hb := mem_append.mp hb
    · have := h.blocks.lo_lt.1 b hb
      omega
    · have := h.blocks.lo_lt.2 b hb
      omega
  have hne' : ∀ x ∈ (vs ++ us).map lo, x ≠ P.lo :=
    forall_mem_map.mpr fun b hb => hne b (perm_append_comm.subset hb)
  rw [Heap.joinLower, hend]
  by_cases hjoin : P.lo + P.len = B.lo
  · rw [if_pos hjoin]
    have hPbase : base < P.lo := by
      obtain rfl | ⟨hlt, -⟩ := h.blocks.above P (by simp)
      · have := h.base_lt
        simp only at hjoin
        omega
      · exact hlt
    have hbelow := h.below
    have hnew : (H.size P.lo + H.size B.lo) % 2 ^ 32 = H.size P.lo + H.size B.lo :=
      Nat.mod_eq_of_lt (by omega)
    refine ⟨us ++ ⟨P.lo, P.len + B.len⟩ :: vs, ⟨h.blocks.resize hPbase ?_ ?_ ?_, ?_, ?_, ?_⟩, ?_, ?_,
      fun a ha => update_of_ne ha ..⟩
    · have := h.pos
      omega
    · omega
    · intro c hc
      have := h.apart c hc
      omega
    · intro b hb
      dsimp only
      rw [mem_append, mem_cons] at hb
      obtain hb | rfl | hb := hb
      · rw [update_of_ne (hne b (by simp [hb]))]
        exact h.size b (by simp [hb])
      · rw [update_self, hnew]
        show P.len + B.len = _
        omega
      · rw [update_of_ne (hne b (by simp [hb]))]
        exact h.size b (by simp [hb])
    · rw [map_append, map_cons, circle_append, ← map_append]
      exact h.leads.restart (update_self ..) fun x hx =>
        update_of_ne (hne' x hx) ..
    · simp
    · rw [perm_iff_count]
      intro x
      have hcount := congrArg (List.count x) (bytes_append hjoin)
      simp only [bytesAll_append, bytesAll_cons, count_append] at hcount ⊢
      omega
    · exact ⟨⟨P.lo, P.len + B.len⟩, by simp, Nat.le_add_left ..⟩
  · rw [if_neg hjoin]
    refine ⟨us ++ P :: B :: vs, ⟨h.blocks.insert h.base_lt h.pos h.below
      (lt_of_le_of_ne h.lower hjoin) h.apart, h.size, ?_, ?_⟩, ?_, ?_, fun a _ => rfl⟩
    · rw [map_append, map_cons, circle_append, ← map_append]
      refine ⟨update_self .., h.leads.restart (update_of_ne hP.ne' ..) fun x hx =>
        update_of_ne (hne' x hx) ..⟩
    · simp
    · rw [perm_iff_count]
      intro x
      simp only [bytesAll_append, bytesAll_cons, count_append]
      omega
    · exact ⟨B, by simp, le_refl _⟩

theorem FreeList.free {base : ℕ} {H : Heap} {L : List Span} (h : FreeList base H L) {B : Span}
    (hbase : base < B.lo) (hpos : 0 < B.len) (hbelow : B.lo + B.len < 2 ^ 32)
    (hsize : B.len = 8 * H.size B.lo)
    (hapart : ∀ b ∈ L, 0 < b.len → b.lo + b.len ≤ B.lo ∨ B.lo + B.len ≤ b.lo) {n : ℕ}
    (hn : L.length ≤ n) :
    ∃ H' L', H.free n (B.lo + 8) = some H' ∧ FreeList base H' L' ∧
      (bytesAll L').Perm (B.bytes ++ bytesAll L) ∧ (∃ b ∈ L', B.len ≤ b.len) ∧
      ∀ a, a ≠ B.lo → a ∉ L.map lo → H'.size a = H.size a := by
  have hne : ∀ b ∈ L, b.lo ≠ B.lo := by
    intro b hb
    obtain rfl | ⟨-, hblen⟩ := h.above b hb
    · exact hbase.ne
    · have := hapart b hb hblen
      omega
  obtain ⟨us, P, vs, rfl, hP, hvs, hfollow⟩ := h.follow_slot hbase hne hn
  have hfits : Fits base P B vs := by
    refine ⟨hbase, hpos, hbelow, ?_, fun c hc => ?_⟩
    · obtain rfl | ⟨-, hlen⟩ := h.above P (by simp)
      · exact hbase.le
      · have := hapart P (by simp) hlen
        omega
    · have hlt := hvs c hc
      obtain rfl | ⟨-, hlen⟩ := h.above c (by simp [hc])
      · simp only at hlt
        omega
      · have := hapart c (by simp [hc]) hlen
        omega
  obtain ⟨len, vs', hlen, hhalf, hbytes, hframe⟩ := h.joinUpper hfits hsize
  obtain ⟨L', hL', hperm, ⟨b, hb, hble⟩, hframe'⟩ := hhalf.joinLower
  refine ⟨_, L', ?_, hL', ?_, ⟨b, hb, hlen.trans hble⟩, fun a ha hm => ?_⟩
  · rw [Heap.free, header_add (by omega), hfollow]
    rfl
  · refine hperm.trans ?_
    rw [perm_iff_count]
    intro x
    have hcount := congrArg (List.count x) hbytes
    simp only [bytesAll_append, bytesAll_cons, count_append] at hcount ⊢
    omega
  · have hPlo : a ≠ P.lo := by
      rintro rfl
      exact hm (by simp)
    exact (hframe' a hPlo).trans (hframe a ha)

/-! ## Taking a block out -/

namespace FreeList

variable {base : ℕ} {H : Heap} {L us vs : List Span} {P Q : Span}

/-- **The loop of `malloc` finds a block that is large enough, if there is one.** -/
theorem follow_found (h : FreeList base H L) {nunits : ℕ} (hpos : 0 < nunits) {n : ℕ}
    (hn : L.length ≤ n) :
    ∃ q, follow H.ptr (H.found nunits) n H.freep = some q ∧
      if nunits ≤ H.size (H.ptr q) then
        ∃ us Q P vs, L = us ++ Q :: P :: vs ∧ q = Q.lo ∧ 8 * nunits ≤ P.len
      else ∀ b ∈ L, b.len < 8 * nunits := by
  obtain ⟨F, hF, hlo⟩ := mem_map.mp h.freep
  obtain ⟨us, vs, rfl⟩ := append_of_mem hF
  have hleads := h.leads
  have hmem : ∀ q, q ∈ F.lo :: (vs ++ us).map lo ↔ q ∈ (us ++ F :: vs).map lo := by
    intro q
    simp only [mem_cons, map_append, mem_append, map_cons]
    tauto
  have hnodup : (F.lo :: (vs ++ us).map lo).Nodup := by
    refine (List.Perm.nodup_iff ?_).mp h.nodup
    rw [← map_cons]
    exact List.Perm.map lo (perm_middle.trans (perm_append_comm.cons F))
  have hstop : ∃ q ∈ F.lo :: (vs ++ us).map lo, H.found nunits q = true := by
    obtain ⟨q, hq, hnext⟩ := hleads.exists_prev (b := F.lo) (by simp)
    exact ⟨q, hq, by simp [Heap.found, hnext, hlo]⟩
  have hfollow := hleads.follow hstop (n := n) (by simp at hn ⊢; omega)
  obtain ⟨q, hq⟩ := Option.isSome_iff_exists.mp (find?_isSome.mpr hstop)
  rw [hq, hlo] at hfollow
  refine ⟨q, hfollow, ?_⟩
  obtain ⟨hfound, as, bs, hsplit, has⟩ := find?_eq_some_iff_append.mp hq
  split
  · rename_i hfit
    obtain ⟨Q, hQ, rfl⟩ := mem_map.mp ((hmem q).mp (mem_of_find?_eq_some hq))
    obtain ⟨us', vs', hL⟩ := append_of_mem hQ
    rw [hL] at h ⊢
    cases vs' with
    | nil =>
      -- `base` is never large enough
      rw [h.ptr_last] at hfit
      have := h.size _ h.base_mem
      simp only at this
      omega
    | cons P vs' =>
      rw [h.ptr_cons] at hfit
      have := h.size P (by simp)
      exact ⟨us', Q, P, vs', rfl, rfl, by omega⟩
  · rename_i hfit
    -- the loop has come back to `freep`
    have hback : H.ptr q = F.lo := by simpa [Heap.found, hfit, hlo] using hfound
    obtain rfl := hleads.eq_nil_of_next hnodup hsplit hback
    intro b hb
    have hb' : b.lo ∈ (vs ++ us).map lo ++ [F.lo] := by
      have := (hmem b.lo).mpr (mem_map_of_mem hb)
      rwa [mem_cons, or_comm, ← mem_singleton, ← mem_append] at this
    obtain ⟨y, hy, hnext⟩ := hleads.exists_prev hb'
    have hsize := h.size b hb
    rw [hsplit, mem_append, mem_singleton] at hy
    obtain hy | rfl := hy
    · have hno := has y hy
      simp only [Heap.found, hnext, Bool.not_eq_true', Bool.or_eq_false_iff,
        decide_eq_false_iff_not] at hno
      omega
    · rw [hnext] at hfit
      omega

end FreeList

/-- `x` is the heap without the block `B` of `nunits` units, of which it has the pointer. -/
structure Taken (base : ℕ) (H : Heap) (L : List Span) (nunits : ℕ) (x : Heap × ℕ) (B : Span)
    (L' : List Span) : Prop where
  pointer : x.2 = B.lo + 8
  len : B.len = 8 * nunits
  freeList : FreeList base x.1 L'
  bytes : (B.bytes ++ bytesAll L').Perm (bytesAll L)
  size : x.1.size B.lo = nunits
  frame : ∀ a, a ≠ B.lo → a ∉ L.map lo → x.1.size a = H.size a

namespace FreeList

variable {base : ℕ} {H : Heap} {L us vs : List Span} {P Q : Span}

theorem takeAll (h : FreeList base H (us ++ Q :: P :: vs)) (hpos : 0 < H.size P.lo) :
    Taken base H (us ++ Q :: P :: vs) (H.size P.lo)
      ({ H with ptr := update H.ptr Q.lo (H.ptr P.lo), freep := Q.lo }, plus P.lo 1) P
      (us ++ Q :: vs) := by
  have hsize := h.size P (by simp)
  have hbelow := h.below P (by simp)
  have hsub : (us ++ Q :: vs).Sublist (us ++ Q :: P :: vs) :=
    (List.Sublist.refl us).append ((sublist_cons_self P vs).cons_cons Q)
  refine ⟨plus_eq (by omega), hsize, ⟨h.toBlocks.sublist hsub ?_, fun b hb => ?_, ?_, by simp⟩, ?_,
    rfl, fun _ _ _ => rfl⟩
  · have hbase := h.base_mem
    have hne : ⟨base, 0⟩ ≠ P := by
      intro he
      exact absurd (congrArg lo he) (h.lt_lo (b := P) (by simp) (by omega)).ne
    simpa [hne] using hbase
  · exact h.size b (hsub.subset hb)
  · rw [map_append, map_cons, circle_append, ← map_append]
    refine h.leads.2.restart (update_self ..) fun x hx => update_of_ne ?_ ..
    rintro rfl
    obtain ⟨b, hb, hlo⟩ := mem_map.mp hx
    obtain hb | hb := mem_append.mp hb
    · have := h.lo_lt.2 b (by simp [hb])
      omega
    · have := h.lo_lt.1 b hb
      omega
  · rw [perm_iff_count]
    intro x
    simp only [bytesAll_append, bytesAll_cons, count_append]
    omega

theorem takeEnd (h : FreeList base H (us ++ Q :: P :: vs)) {nunits rest : ℕ} (hpos : 0 < nunits)
    (hrest : 0 < rest) (hfit : rest + nunits = H.size P.lo) :
    Taken base H (us ++ Q :: P :: vs) nunits
      ({ H with
         size := update (update H.size P.lo rest) (plus P.lo rest) nunits
         freep := Q.lo }, plus (plus P.lo rest) 1)
      ⟨P.lo + 8 * rest, 8 * nunits⟩ (us ++ Q :: ⟨P.lo, 8 * rest⟩ :: vs) := by
  have hsize := h.size P (by simp)
  have hbelow := h.below P (by simp)
  have hPbase : base < P.lo := h.lt_lo (by simp) (by omega)
  have h' : FreeList base H ((us ++ [Q]) ++ P :: vs) := by simpa using h
  have hblocks : Blocks base ((us ++ [Q]) ++ ⟨P.lo, 8 * rest⟩ :: vs) := by
    refine h'.toBlocks.resize hPbase (by omega) (by omega) fun c hc => ?_
    have := h'.lo_lt.2 c hc
    omega
  -- the new header is inside the block
  have hne : ∀ b ∈ us ++ Q :: P :: vs, b.lo ≠ P.lo + 8 * rest := by
    intro b hb
    rw [append_cons us Q (P :: vs), mem_append, mem_cons] at hb
    obtain hb | rfl | hb := hb
    · have := h'.lo_lt.1 b hb
      omega
    · omega
    · have := h'.lo_lt.2 b hb
      omega
  have hplus : plus P.lo rest = P.lo + 8 * rest := plus_eq (by omega)
  rw [hplus]
  refine ⟨plus_eq (by omega), rfl, ⟨by simpa using hblocks, fun b hb => ?_, ?_, by simp⟩,
    ?_, update_self .., fun a ha hm => ?_⟩
  · dsimp only
    rw [mem_append, mem_cons, mem_cons] at hb
    obtain hb | rfl | rfl | hb := hb
    · have := h'.lo_lt.1 b (by simp [hb])
      rw [update_of_ne (hne b (by simp [hb])), update_of_ne (by omega)]
      exact h.size b (by simp [hb])
    · have := h'.lo_lt.1 b (by simp)
      rw [update_of_ne (hne b (by simp)), update_of_ne (by omega)]
      exact h.size b (by simp)
    · rw [update_of_ne (hne P (by simp)), update_self]
    · have := h'.lo_lt.2 b hb
      rw [update_of_ne (hne b (by simp [hb])), update_of_ne (by omega)]
      exact h.size b (by simp [hb])
  · simpa using h.circle
  · rw [perm_iff_count]
    intro x
    have hcount := congrArg (List.count x)
      (bytes_append (s := ⟨P.lo, 8 * rest⟩) (t := ⟨P.lo + 8 * rest, 8 * nunits⟩) rfl)
    have hP : Span.bytes ⟨P.lo, 8 * rest + 8 * nunits⟩ = P.bytes := by
      rw [Span.bytes, Span.bytes, hsize, ← hfit, mul_add]
    simp only [bytesAll_append, bytesAll_cons, count_append, hP] at hcount ⊢
    omega
  · have hP : a ≠ P.lo := by
      rintro rfl
      exact hm (by simp)
    simp only [update_of_ne ha, update_of_ne hP]

/-- **`malloc` takes a block out of the free list, or the end of one.** -/
theorem take (h : FreeList base H (us ++ Q :: P :: vs)) {nunits : ℕ} (hpos : 0 < nunits)
    (hfit : 8 * nunits ≤ P.len) :
    ∃ B L', Taken base H (us ++ Q :: P :: vs) nunits (H.take nunits Q.lo) B L' := by
  have hsize := h.size P (by simp)
  simp only [Heap.take, h.ptr_cons]
  split
  · rename_i hall
    subst hall
    exact ⟨_, _, h.takeAll hpos⟩
  · exact ⟨_, _, h.takeEnd hpos (by omega) (by omega)⟩

end FreeList

end Xv6.Umalloc
