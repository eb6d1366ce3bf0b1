import Mathlib.Data.List.Nodup
import Xv6.Mkfs.Basic

/-!
# What `iappend` does to a file

The blocks of a file form a `Tree`: the data blocks in order, and the indirect block once
there are more than twelve of them.  `Tree.At` says that an inode and the indirect block list
the tree, `Tree.Holds` that the data blocks hold the bytes of the file.

A round of the loop of `iappend` finds the block in the tree, or takes one or two fresh
blocks from `freeblock`; fresh blocks are still zero, and that is why a new indirect block
lists nothing.
-/

namespace Xv6.Mkfs

open List

/-- The number of data blocks of a file of `n` bytes. -/
def blocksFor (n : ℕ) : ℕ := (n + (bsize - 1)) / bsize

/-- The number of all blocks of a file of `n` bytes. -/
def need (n : ℕ) : ℕ := blocksFor n + if ndirect < blocksFor n then 1 else 0

/-- The blocks of a file. -/
structure Tree where
  /-- The data blocks, in order. -/
  bs : List ℕ
  /-- The indirect block. -/
  ind : Option ℕ
  ind_isSome : ind.isSome ↔ ndirect < bs.length
  nodup : (bs ++ ind.toList).Nodup
  pos : ∀ b ∈ bs ++ ind.toList, 0 < b

namespace Tree

/-- All blocks of the file. -/
def blocks (T : Tree) : List ℕ := T.bs ++ T.ind.toList

/-- Data block `i`, or `0`. -/
def addr (T : Tree) (i : ℕ) : ℕ := T.bs[i]?.getD 0

/-- The inode and the indirect block list the tree. -/
structure At (T : Tree) (d : Img) (din : Dinode) : Prop where
  direct : ∀ i < ndirect, din.addrs i = T.addr i
  single : din.addrs ndirect = T.ind.getD 0
  table : ∀ b, T.ind = some b → ∀ j < nindirect, entry (d.block b) j = T.addr (ndirect + j)

/-- The data blocks hold these bytes. -/
structure Holds (T : Tree) (d : Img) (data : List UInt8) : Prop where
  length : T.bs.length = blocksFor data.length
  byte : ∀ i < data.length, (d.block (T.addr (i / bsize))).byte (i % bsize) = data[i]?.getD 0

variable {T : Tree} {d d' : Img} {din : Dinode} {data : List UInt8} {b i : ℕ}

theorem addr_mem (hi : i < T.bs.length) : T.addr i ∈ T.bs := by
  rw [addr, getElem?_eq_getElem hi]
  exact getElem_mem hi

theorem addr_pos (hi : i < T.bs.length) : 0 < T.addr i :=
  T.pos _ (mem_append_left _ (addr_mem hi))

theorem addr_eq_zero (hi : T.bs.length ≤ i) : T.addr i = 0 := by
  rw [addr, List.getElem?_eq_none hi]
  rfl

theorem mem_blocks_of_bs (h : b ∈ T.bs) : b ∈ T.blocks := mem_append_left _ h

theorem mem_blocks_of_ind (h : T.ind = some b) : b ∈ T.blocks :=
  mem_append_right _ (by rw [h]; exact mem_singleton_self b)

theorem ne_ind (h : b ∈ T.bs) : T.ind ≠ some b := by
  intro hb
  have := disjoint_of_nodup_append T.nodup h
  rw [hb] at this
  exact this (mem_singleton_self b)

theorem addr_inj {j : ℕ} (hi : i < T.bs.length) (hj : j < T.bs.length) (h : T.addr i = T.addr j) :
    i = j := by
  rw [addr, addr, getElem?_eq_getElem hi, getElem?_eq_getElem hj] at h
  exact (List.Nodup.getElem_inj_iff (List.Nodup.of_append_left T.nodup)).mp h

theorem At.congr (h : T.At d din) (hd : ∀ b, T.ind = some b → d'.block b = d.block b) : T.At d' din :=
  ⟨h.direct, h.single, fun b hb j hj => by rw [hd b hb]; exact h.table b hb j hj⟩

theorem Holds.congr (h : T.Holds d data) (hd : ∀ b ∈ T.bs, d'.block b = d.block b) :
    T.Holds d' data := by
  refine ⟨h.length, fun i hi => ?_⟩
  have hlt : i / bsize < T.bs.length := by
    rw [h.length, blocksFor, bsize]
    omega
  rw [hd _ (addr_mem hlt)]
  exact h.byte i hi

end Tree

/-! ## The fields of an inode -/

namespace Dinode

variable {din : Dinode} {i j a n : ℕ}

theorem addrs_setAddrs_same (hi : i ≤ ndirect) (ha : a < 256 ^ 4) :
    (din.setAddrs i a).addrs i = a := by
  rw [addrs, setAddrs, Bytes.num_setNum_same, Nat.mod_eq_of_lt ha]
  rw [dinodeSize, ndirect] at *
  omega

theorem addrs_setAddrs_of_ne (hij : i ≠ j) : (din.setAddrs i a).addrs j = din.addrs j := by
  rw [addrs, setAddrs, Bytes.num_setNum_of_disjoint _ _ (by omega), addrs]

theorem addrs_setSize : (din.setSize n).addrs j = din.addrs j := by
  rw [addrs, setSize, Bytes.num_setNum_of_disjoint _ _ (by omega), addrs]

theorem size_setSize (hn : n < 256 ^ 4) : (din.setSize n).size = n := by
  rw [size, setSize, Bytes.num_setNum_same (by decide), Nat.mod_eq_of_lt hn]

end Dinode

theorem entry_setEntry_same {b : Block} {i a : ℕ} (hi : i < nindirect) (ha : a < 256 ^ 4) :
    entry (setEntry b i a) i = a := by
  rw [entry, setEntry, Bytes.num_setNum_same, Nat.mod_eq_of_lt ha]
  unfold nindirect bsize at *
  omega

theorem entry_setEntry_of_ne {b : Block} {i j a : ℕ} (hij : i ≠ j) :
    entry (setEntry b i a) j = entry b j := by
  rw [entry, setEntry, Bytes.num_setNum_of_disjoint _ _ (by omega), entry]

namespace Img

variable {d : Img} {sec b : ℕ} {buf : Block}

theorem rsect_of_lt (h : sec < d.len) : d.rsect sec = some (d.block sec) := if_pos h

theorem rsect_of_le (h : d.len ≤ sec) : d.rsect sec = none := if_neg (not_lt.mpr h)

theorem wsect_len (h : sec < d.len) : (d.wsect sec buf).len = d.len := max_eq_left h

@[simp] theorem wsect_block_self : (d.wsect sec buf).block sec = buf := Function.update_self _ _ _

theorem wsect_block_of_ne (h : b ≠ sec) : (d.wsect sec buf).block b = d.block b :=
  Function.update_of_ne h _ _

end Img

/-! ## `blockOf` -/

/-- What is known of the image while a file is written: the blocks from `freeblock` on are
fresh, and those of the file are below. -/
structure Ready (S : State) (T : Tree) : Prop where
  len : S.img.len = fssize
  le : S.freeblock ≤ fssize
  pos : 0 < S.freeblock
  zero : ∀ b, S.freeblock ≤ b → S.img.block b = Bytes.zero
  below : ∀ b ∈ T.blocks, b < S.freeblock

/-- The number of fresh blocks that block `fbn` of the file takes. -/
def Tree.fresh (T : Tree) (fbn : ℕ) : ℕ :=
  if fbn < T.bs.length then 0 else if fbn = ndirect then 2 else 1

/-- `T'` is `T` with block `fbn`. -/
structure Tree.Grows (T T' : Tree) (fbn fb : ℕ) : Prop where
  length : T'.bs.length = max T.bs.length (fbn + 1)
  addr : ∀ i < T.bs.length, T'.addr i = T.addr i
  perm : T'.blocks.Perm (T.blocks ++ List.range' fb (T.fresh fbn))

section BlockOf

variable {S : State} {T : Tree} {din : Dinode} {fbn : ℕ}

theorem blockOf_of_lt (hT : T.At S.img din) (hR : Ready S T) (hfbn : fbn < T.bs.length)
    (hmax : fbn < maxfile) : blockOf S din fbn = some (T.addr fbn, S, din) := by
  have hne : T.addr fbn ≠ 0 := (Tree.addr_pos hfbn).ne'
  unfold blockOf
  by_cases hd : fbn < ndirect
  · rw [if_pos hd, hT.direct fbn hd, if_neg hne]
  · obtain ⟨b, hb⟩ := Option.isSome_iff_exists.mp (T.ind_isSome.mpr (by omega))
    have hb0 : din.addrs ndirect = b := by rw [hT.single, hb]; rfl
    have hmem := Tree.mem_blocks_of_ind hb
    have hlt : b < S.img.len := by
      rw [hR.len]
      exact lt_of_lt_of_le (hR.below b hmem) hR.le
    have hind : indirectOf S din = (S, din) := by
      rw [indirectOf, if_neg]
      rw [hb0]
      exact (T.pos b hmem).ne'
    have hentry : entry (S.img.block b) (fbn - ndirect) = T.addr fbn := by
      rw [hT.table b hb _ (by unfold maxfile at hmax; omega), Nat.add_sub_cancel' (not_lt.mp hd)]
    rw [if_neg hd, hind]
    simp only [hb0, Img.rsect_of_lt hlt, hentry, if_neg hne]

/-- A tree with fresh blocks. -/
def Tree.ofPerm (hR : Ready S T) {bs : List ℕ} {ind : Option ℕ} {k : ℕ}
    (hind : ind.isSome ↔ ndirect < bs.length)
    (hperm : (bs ++ ind.toList).Perm (T.blocks ++ List.range' S.freeblock k)) : Tree where
  bs := bs
  ind := ind
  ind_isSome := hind
  nodup := by
    refine hperm.nodup_iff.mpr (List.Nodup.append T.nodup nodup_range' fun b hb hb' => ?_)
    have := hR.below b hb
    have := (mem_range'_1.mp hb').1
    omega
  pos b hb := by
    obtain hb | hb := mem_append.mp (hperm.mem_iff.mp hb)
    · exact T.pos b hb
    · exact lt_of_lt_of_le hR.pos (mem_range'_1.mp hb).1

/-- What `blockOf` has done for a file whose tree was `T`. -/
structure Found (S : State) (T : Tree) (din : Dinode) (fbn : ℕ) (S' : State) (T' : Tree)
    (din' : Dinode) : Prop where
  eq : blockOf S din fbn = some (T'.addr fbn, S', din')
  at_ : T'.At S'.img din'
  grows : T.Grows T' fbn S.freeblock
  /-- A new data block is the last one taken. -/
  last : T.bs.length ≤ fbn → T'.addr fbn + 1 = S.freeblock + T.fresh fbn
  frame : ∀ b, T'.ind ≠ some b → S'.img.block b = S.img.block b
  len : S'.img.len = S.img.len
  freeblock : S'.freeblock = S.freeblock + T.fresh fbn
  usedblocks : S'.usedblocks = S.usedblocks + T.fresh fbn
  freeinode : S'.freeinode = S.freeinode
  fields : ∀ o k, o + k ≤ 12 → din'.num o k = din.num o k

theorem addr_append {bs : List ℕ} {x i : ℕ} (hi : i < bs.length) :
    (bs ++ [x])[i]?.getD 0 = bs[i]?.getD 0 := by
  rw [getElem?_append_left hi]

theorem lt_word {a : ℕ} (ha : a ≤ fssize + 1) : a < 256 ^ 4 := by
  unfold fssize at ha
  omega

theorem Tree.ind_none (T : Tree) (h : T.bs.length ≤ ndirect) : T.ind = none := by
  rw [← Option.not_isSome_iff_eq_none, T.ind_isSome]
  omega

theorem indirectOf_none (hT : T.At S.img din) (hnone : T.ind = none) :
    indirectOf S din = (S.take, din.setAddrs ndirect S.freeblock) := by
  rw [indirectOf, if_pos]
  rw [hT.single, hnone]
  rfl

section

variable (hT : T.At S.img din) (hR : Ready S T) (hfbn : fbn = T.bs.length)
include hT hR hfbn

theorem found_direct (hd : fbn < ndirect) : ∃ S' T' din', Found S T din fbn S' T' din' := by
  have hfresh : T.fresh fbn = 1 := by rw [Tree.fresh, if_neg (by omega), if_neg (by omega)]
  have hnone := T.ind_none (by omega)
  have hperm : ((T.bs ++ [S.freeblock]) ++ (none : Option ℕ).toList).Perm
      (T.blocks ++ List.range' S.freeblock 1) := by
    rw [Tree.blocks, hnone]
    simp
  have hsame : T.addr T.bs.length = 0 := Tree.addr_eq_zero le_rfl
  let T' : Tree := Tree.ofPerm hR (by simp; omega) hperm
  have haddr : T'.addr fbn = S.freeblock := by
    show (T.bs ++ [S.freeblock])[fbn]?.getD 0 = _
    simp [hfbn]
  refine ⟨S.take, T', din.setAddrs fbn S.freeblock, ?_, ⟨fun i hi => ?_, ?_, fun b hb => by cases hb⟩,
    ⟨?_, fun i hi => addr_append hi, by rw [hfresh]; exact hperm⟩, fun _ => by rw [haddr, hfresh],
    fun _ _ => rfl, rfl, by rw [hfresh]; rfl, by rw [hfresh]; rfl, rfl, fun o k ho => ?_⟩
  · rw [blockOf, if_pos hd, hT.direct fbn hd, hfbn, hsame, if_pos rfl, ← hfbn, haddr]
  · by_cases hif : i = fbn
    · subst hif
      rw [Dinode.addrs_setAddrs_same hi.le (lt_word (by have := hR.le; omega)), haddr]
    · rw [Dinode.addrs_setAddrs_of_ne (Ne.symm hif), hT.direct i hi]
      rcases lt_or_gt_of_ne hif with hlt | hgt
      · exact (addr_append (hfbn ▸ hlt)).symm
      · rw [Tree.addr_eq_zero (by omega), Tree.addr_eq_zero]
        show (T.bs ++ [S.freeblock]).length ≤ i
        simp
        omega
  · rw [Dinode.addrs_setAddrs_of_ne (by omega), hT.single, hnone]
    rfl
  · show (T.bs ++ [S.freeblock]).length = _
    simp
    omega
  · exact Bytes.num_setNum_of_disjoint _ _ (by omega)

theorem found_table (hd : ndirect < fbn) (hmax : fbn < maxfile) :
    ∃ S' T' din', Found S T din fbn S' T' din' := by
  have hfresh : T.fresh fbn = 1 := by rw [Tree.fresh, if_neg (by omega), if_neg (by omega)]
  obtain ⟨b, hb⟩ := Option.isSome_iff_exists.mp (T.ind_isSome.mpr (by omega))
  have hmem := Tree.mem_blocks_of_ind hb
  have hbelow := hR.below b hmem
  have hlt : b < S.img.len := by
    rw [hR.len]
    exact lt_of_lt_of_le hbelow hR.le
  have hb0 : din.addrs ndirect = b := by rw [hT.single, hb]; rfl
  have hperm : ((T.bs ++ [S.freeblock]) ++ (some b).toList).Perm
      (T.blocks ++ List.range' S.freeblock 1) := by
    rw [Tree.blocks, hb]
    simp only [append_assoc]
    exact List.Perm.append_left _ perm_append_comm
  let T' : Tree := Tree.ofPerm hR (by simp; omega) hperm
  have haddr : T'.addr fbn = S.freeblock := by
    show (T.bs ++ [S.freeblock])[fbn]?.getD 0 = _
    simp [hfbn]
  have hind : indirectOf S din = (S, din) := by
    rw [indirectOf, if_neg]
    rw [hb0]
    exact (T.pos b hmem).ne'
  have hzero : entry (S.img.block b) (fbn - ndirect) = 0 := by
    rw [hT.table b hb _ (by unfold maxfile at hmax; omega), Tree.addr_eq_zero (by omega)]
  refine ⟨{ S.take with img := S.img.wsect b (setEntry (S.img.block b) (fbn - ndirect) S.freeblock) }, T',
    din, ?_, ⟨fun i hi => ?_, hb0, fun c hc j hj => ?_⟩,
    ⟨?_, fun i hi => addr_append hi, by rw [hfresh]; exact hperm⟩, fun _ => by rw [haddr, hfresh],
    fun c hc => ?_, Img.wsect_len hlt, by rw [hfresh]; rfl, by rw [hfresh]; rfl, rfl, fun _ _ _ => rfl⟩
  · rw [blockOf, if_neg (by omega), hind]
    simp only [hb0, Img.rsect_of_lt hlt, hzero, if_true, haddr]
  · rw [hT.direct i hi]
    exact (addr_append (by omega)).symm
  · obtain rfl : b = c := Option.some.inj hc
    rw [Img.wsect_block_self]
    by_cases hj' : j = fbn - ndirect
    · rw [hj', entry_setEntry_same (by unfold maxfile at hmax; omega) (lt_word (by have := hR.le; omega)),
        Nat.add_sub_cancel' hd.le, haddr]
    · rw [entry_setEntry_of_ne (Ne.symm hj'), hT.table b hb j hj]
      rcases lt_or_gt_of_ne hj' with hlt' | hgt
      · exact (addr_append (by omega)).symm
      · rw [Tree.addr_eq_zero (by omega), Tree.addr_eq_zero]
        show (T.bs ++ [S.freeblock]).length ≤ ndirect + j
        simp
        omega
  · show (T.bs ++ [S.freeblock]).length = _
    simp
    omega
  · refine Img.wsect_block_of_ne ?_
    rintro rfl
    exact hc rfl

theorem found_indirect (hd : fbn = ndirect) (hroom : S.freeblock < fssize) :
    ∃ S' T' din', Found S T din fbn S' T' din' := by
  have hfresh : T.fresh fbn = 2 := by rw [Tree.fresh, if_neg (by omega), if_pos hd]
  have hnone := T.ind_none (by omega)
  have hperm : ((T.bs ++ [S.freeblock + 1]) ++ (some S.freeblock).toList).Perm
      (T.blocks ++ List.range' S.freeblock 2) := by
    rw [Tree.blocks, hnone]
    simp only [append_assoc]
    exact List.Perm.append_left _ perm_append_comm
  let T' : Tree := Tree.ofPerm hR (by simp; omega) hperm
  have haddr : T'.addr fbn = S.freeblock + 1 := by
    show (T.bs ++ [S.freeblock + 1])[fbn]?.getD 0 = _
    simp [hfbn]
  have hword : S.freeblock < 256 ^ 4 := lt_word (by omega)
  have hlt : S.freeblock < S.img.len := by rwa [hR.len]
  have hind := indirectOf_none hT hnone
  have hself : (din.setAddrs ndirect S.freeblock).addrs ndirect = S.freeblock :=
    Dinode.addrs_setAddrs_same le_rfl hword
  -- the fresh indirect block lists nothing
  have hzero : ∀ j, entry (S.img.block S.freeblock) j = 0 := by
    intro j
    rw [hR.zero _ le_rfl, entry, Bytes.num_zero]
  let d : Img := S.img.wsect S.freeblock
    (setEntry (S.img.block S.freeblock) (fbn - ndirect) (S.freeblock + 1))
  refine ⟨{ S.take.take with img := d }, T', din.setAddrs ndirect S.freeblock, ?_,
    ⟨fun i hi => ?_, hself, fun c hc j hj => ?_⟩, ⟨?_, fun i hi => addr_append hi, by rw [hfresh]; exact hperm⟩,
    fun _ => by rw [haddr, hfresh], fun c hc => ?_, Img.wsect_len hlt, by rw [hfresh]; rfl,
    by rw [hfresh]; rfl, rfl, fun o k ho => ?_⟩
  · rw [blockOf, if_neg (by omega), hind]
    have hr : S.take.img.rsect S.freeblock = some (S.img.block S.freeblock) := Img.rsect_of_lt hlt
    simp only [hself, hr, hzero, if_true, haddr]
    rfl
  · rw [Dinode.addrs_setAddrs_of_ne (by omega), hT.direct i hi]
    exact (addr_append (by omega)).symm
  · obtain rfl : S.freeblock = c := Option.some.inj hc
    show entry (d.block S.freeblock) j = _
    rw [Img.wsect_block_self, hd, Nat.sub_self]
    by_cases hj' : j = 0
    · rw [hj', entry_setEntry_same (by decide) (lt_word (by omega)), ← haddr, hd]
      rfl
    · rw [entry_setEntry_of_ne (Ne.symm hj'), hzero, Tree.addr_eq_zero]
      show (T.bs ++ [S.freeblock + 1]).length ≤ ndirect + j
      simp
      omega
  · show (T.bs ++ [S.freeblock + 1]).length = _
    simp
    omega
  · refine Img.wsect_block_of_ne ?_
    rintro rfl
    exact hc rfl
  · exact Bytes.num_setNum_of_disjoint _ _ (by unfold ndirect; omega)

end

theorem found (hT : T.At S.img din) (hR : Ready S T) (hfbn : fbn ≤ T.bs.length)
    (hmax : fbn < maxfile) (hroom : S.freeblock + T.fresh fbn ≤ fssize) :
    ∃ S' T' din', Found S T din fbn S' T' din' := by
  rcases lt_or_eq_of_le hfbn with hlt | heq
  · have hfresh : T.fresh fbn = 0 := if_pos hlt
    refine ⟨S, T, din, blockOf_of_lt hT hR hlt hmax, hT, ⟨by omega, fun _ _ => rfl, ?_⟩,
      fun hle => absurd hle (not_le.mpr hlt), fun _ _ => rfl, rfl, by omega, by omega, rfl,
      fun _ _ _ => rfl⟩
    rw [hfresh]
    simp
  · rcases lt_trichotomy fbn ndirect with hd | hd | hd
    · exact found_direct hT hR heq hd
    · have hfresh : T.fresh fbn = 2 := by rw [Tree.fresh, if_neg (by omega), if_pos hd]
      exact found_indirect hT hR heq hd (by omega)
    · exact found_table hT hR heq hd hmax

end BlockOf

/-! ## One round of the loop -/

theorem div_le_blocksFor (n : ℕ) : n / bsize ≤ blocksFor n := by
  unfold blocksFor bsize
  omega

theorem blocksFor_add {n m : ℕ} (hm : 0 < m) (hle : n % bsize + m ≤ bsize) :
    blocksFor (n + m) = max (blocksFor n) (n / bsize + 1) := by
  unfold blocksFor bsize at *
  omega

theorem Tree.need_add {T : Tree} {n m : ℕ} (hT : T.bs.length = blocksFor n) (hm : 0 < m)
    (hle : n % bsize + m ≤ bsize) : need (n + m) = need n + T.fresh (n / bsize) := by
  have hadd := blocksFor_add hm hle
  have hdiv := div_le_blocksFor n
  unfold need fresh
  rw [hT, hadd]
  split_ifs <;> omega

/-- What appending the bytes `p` has done to a file that held `data` in the tree `T`. -/
structure Appended (S : State) (T : Tree) (din : Dinode) (data p : List UInt8) (S' : State)
    (T' : Tree) (din' : Dinode) : Prop where
  at_ : T'.At S'.img din'
  holds : T'.Holds S'.img (data ++ p)
  ready : Ready S' T'
  freeblock : S'.freeblock + need data.length = S.freeblock + need (data.length + p.length)
  usedblocks : S'.usedblocks + need data.length = S.usedblocks + need (data.length + p.length)
  perm : T'.blocks.Perm (T.blocks ++ List.range' S.freeblock (S'.freeblock - S.freeblock))
  le : S.freeblock ≤ S'.freeblock
  frame : ∀ b, b ∉ T'.blocks → S'.img.block b = S.img.block b
  freeinode : S'.freeinode = S.freeinode
  fields : ∀ o k, o + k ≤ 12 → din'.num o k = din.num o k

section Piece

variable {S : State} {T : Tree} {din : Dinode} {data p : List UInt8}

theorem putPiece_spec (hT : T.At S.img din) (hH : T.Holds S.img data) (hR : Ready S T)
    (hp : 0 < p.length) (hle : data.length % bsize + p.length ≤ bsize)
    (hmax : data.length / bsize < maxfile)
    (hroom : S.freeblock + T.fresh (data.length / bsize) ≤ fssize) :
    ∃ S' T' din', putPiece S din (data.length / bsize) (data.length % bsize) p = some (S', din') ∧
      Appended S T din data p S' T' din' := by
  have hdiv := div_le_blocksFor data.length
  obtain ⟨S₁, T', din', hF⟩ := found hT hR (by rw [hH.length]; exact hdiv) hmax hroom
  have hlenT : T'.bs.length = blocksFor (data.length + p.length) := by
    rw [hF.grows.length, hH.length, blocksFor_add hp hle]
  have hfbn : data.length / bsize < T'.bs.length := by
    rw [hF.grows.length]
    omega
  have hx := Tree.addr_mem hfbn
  have hbelow : ∀ b ∈ T'.blocks, b < S₁.freeblock := by
    intro b hb
    rw [hF.freeblock]
    obtain hb | hb := mem_append.mp (hF.grows.perm.mem_iff.mp hb)
    · exact lt_of_lt_of_le (hR.below b hb) (Nat.le_add_right _ _)
    · exact (mem_range'_1.mp hb).2
  have hlen : S₁.img.len = fssize := hF.len.trans hR.len
  have hlt : T'.addr (data.length / bsize) < S₁.img.len := by
    have := hbelow _ (Tree.mem_blocks_of_bs hx)
    rw [hF.freeblock] at this
    rw [hlen]
    omega
  have hbuf := hF.frame _ (Tree.ne_ind hx)
  let buf : Block := (S₁.img.block (T'.addr (data.length / bsize))).copy (data.length % bsize) p
  have hother : ∀ b, b ≠ T'.addr (data.length / bsize) →
      (S₁.img.wsect (T'.addr (data.length / bsize)) buf).block b = S₁.img.block b :=
    fun b hb => Img.wsect_block_of_ne hb
  refine ⟨{ S₁ with img := S₁.img.wsect (T'.addr (data.length / bsize)) buf }, T', din', ?_,
    ⟨hF.at_.congr fun b hb => hother b ?_, ⟨by rw [hlenT, length_append], fun i hi => ?_⟩,
      ⟨?_, ?_, ?_, fun b hb => ?_, hbelow⟩, ?_, ?_, ?_, ?_, fun b hb => ?_, hF.freeinode, hF.fields⟩⟩
  · rw [putPiece, hF.eq]
    simp only [Img.rsect_of_lt hlt]
    rfl
  · rintro rfl
    exact Tree.ne_ind hx hb
  · show ((S₁.img.wsect (T'.addr (data.length / bsize)) buf).block (T'.addr (i / bsize))).byte (i % bsize) = _
    by_cases hold : i < data.length
    · have hi' : i / bsize < T.bs.length := by
        rw [hH.length, blocksFor, bsize]
        omega
      have hsame := hF.grows.addr _ hi'
      rw [getElem?_append_left hold, ← hH.byte i hold]
      by_cases heq : i / bsize = data.length / bsize
      · rw [heq, Img.wsect_block_self, Bytes.byte_copy_of_notMem, hbuf, ← heq, hsame]
        unfold bsize at *
        omega
      · have hne : T'.addr (i / bsize) ≠ T'.addr (data.length / bsize) := by
          refine fun h => heq (Tree.addr_inj ?_ hfbn h)
          rw [hF.grows.length]
          omega
        have hmem : T'.addr (i / bsize) ∈ T'.bs := Tree.addr_mem (by rw [hF.grows.length]; omega)
        rw [hother _ hne, hF.frame _ (Tree.ne_ind hmem), hsame]
    · rw [length_append] at hi
      have heq : i / bsize = data.length / bsize := by
        unfold bsize at *
        omega
      have hmod : i % bsize - data.length % bsize = i - data.length := by
        unfold bsize at *
        omega
      have hb : i % bsize < bsize := Nat.mod_lt _ (by decide)
      rw [heq, Img.wsect_block_self, Bytes.byte_copy_of_mem hb, hmod,
        getElem?_append_right (not_lt.mp hold)]
      · unfold bsize at *
        omega
      · unfold bsize at *
        omega
  · exact (Img.wsect_len hlt).trans hlen
  · show S₁.freeblock ≤ fssize
    rw [hF.freeblock]
    exact hroom
  · show 0 < S₁.freeblock
    rw [hF.freeblock]
    exact lt_of_lt_of_le hR.pos (Nat.le_add_right _ _)
  · have hge : S₁.freeblock ≤ b := hb
    have hnot : b ∉ T'.blocks := fun hmem => absurd (hbelow b hmem) (not_lt.mpr hge)
    rw [hother b, hF.frame b, hR.zero b (by rw [hF.freeblock] at hge; omega)]
    · exact fun hind => hnot (Tree.mem_blocks_of_ind hind)
    · rintro rfl
      exact hnot (Tree.mem_blocks_of_bs hx)
  · show S₁.freeblock + _ = _
    rw [hF.freeblock, Tree.need_add hH.length hp hle]
    omega
  · show S₁.usedblocks + _ = _
    rw [hF.usedblocks, Tree.need_add hH.length hp hle]
    omega
  · show T'.blocks.Perm (T.blocks ++ List.range' S.freeblock (S₁.freeblock - S.freeblock))
    rw [hF.freeblock, Nat.add_sub_cancel_left]
    exact hF.grows.perm
  · show S.freeblock ≤ S₁.freeblock
    rw [hF.freeblock]
    omega
  · rw [hother b, hF.frame b]
    · exact fun hind => hb (Tree.mem_blocks_of_ind hind)
    · rintro rfl
      exact hb (Tree.mem_blocks_of_bs hx)

theorem putPiece_none (hT : T.At S.img din) (hR : Ready S T) {fbn o : ℕ} (hfbn : fbn ≤ T.bs.length)
    (hmax : fbn < maxfile) (hroom : fssize < S.freeblock + T.fresh fbn) :
    putPiece S din fbn o p = none := by
  have hle := hR.le
  have heq : fbn = T.bs.length := by
    by_contra hne
    have : T.fresh fbn = 0 := if_pos (lt_of_le_of_ne hfbn hne)
    omega
  have hfail : (∃ S' T' din', Found S T din fbn S' T' din') → putPiece S din fbn o p = none := by
    rintro ⟨S', T', din', hF⟩
    have hx := hF.last heq.ge
    rw [putPiece, hF.eq]
    simp only [Img.rsect_of_le (show S'.img.len ≤ T'.addr fbn by rw [hF.len, hR.len]; omega)]
  rcases lt_trichotomy fbn ndirect with hd | hd | hd
  · exact hfail (found_direct hT hR heq hd)
  · by_cases hlast : S.freeblock < fssize
    · exact hfail (found_indirect hT hR heq hd hlast)
    · -- not even the indirect block can be had
      have hind := indirectOf_none hT (T.ind_none (by omega))
      have hself : (din.setAddrs ndirect S.freeblock).addrs ndirect = S.freeblock :=
        Dinode.addrs_setAddrs_same le_rfl (lt_word (by omega))
      have hr : S.take.img.rsect S.freeblock = none :=
        Img.rsect_of_le (show S.img.len ≤ S.freeblock by rw [hR.len]; omega)
      rw [putPiece, blockOf, if_neg (by omega), hind]
      simp only [hself, hr]
  · exact hfail (found_table hT hR heq hd hmax)

end Piece

/-! ## The loop -/

theorem need_mono {n m : ℕ} (h : n ≤ m) : need n ≤ need m := by
  have : blocksFor n ≤ blocksFor m := Nat.div_le_div_right (by omega)
  unfold need
  split_ifs <;> omega

namespace Appended

variable {S S₁ S₂ : State} {T T₁ T₂ : Tree} {din din₁ din₂ : Dinode} {data p q : List UInt8}

theorem refl (hT : T.At S.img din) (hH : T.Holds S.img data) (hR : Ready S T) :
    Appended S T din data [] S T din where
  at_ := hT
  holds := by rwa [append_nil]
  ready := hR
  freeblock := rfl
  usedblocks := rfl
  perm := by simp
  le := le_rfl
  frame _ _ := rfl
  freeinode := rfl
  fields _ _ _ := rfl

theorem trans (h₁ : Appended S T din data p S₁ T₁ din₁)
    (h₂ : Appended S₁ T₁ din₁ (data ++ p) q S₂ T₂ din₂) :
    Appended S T din data (p ++ q) S₂ T₂ din₂ where
  at_ := h₂.at_
  holds := by
    rw [← append_assoc]
    exact h₂.holds
  ready := h₂.ready
  freeblock := by
    have e₁ := h₁.freeblock
    have e₂ := h₂.freeblock
    rw [length_append] at e₂ ⊢
    rw [add_assoc] at e₂
    omega
  usedblocks := by
    have e₁ := h₁.usedblocks
    have e₂ := h₂.usedblocks
    rw [length_append] at e₂ ⊢
    rw [add_assoc] at e₂
    omega
  perm := by
    have hle₁ := h₁.le
    have hle₂ := h₂.le
    have hsplit : List.range' S.freeblock (S₂.freeblock - S.freeblock) =
        List.range' S.freeblock (S₁.freeblock - S.freeblock) ++
          List.range' S₁.freeblock (S₂.freeblock - S₁.freeblock) := by
      rw [show S₁.freeblock = S.freeblock + (S₁.freeblock - S.freeblock) by omega, Nat.add_sub_cancel_left,
        List.range'_append_1]
      congr 1
      omega
    rw [hsplit, ← append_assoc]
    exact h₂.perm.trans (h₁.perm.append_right _)
  le := h₁.le.trans h₂.le
  frame b hb := by
    rw [h₂.frame b hb, h₁.frame b]
    intro hb₁
    exact hb (h₂.perm.mem_iff.mpr (mem_append_left _ hb₁))
  freeinode := h₂.freeinode.trans h₁.freeinode
  fields o k ho := (h₂.fields o k ho).trans (h₁.fields o k ho)

end Appended

/-- A file of `n` bytes can grow to `m` bytes. -/
def Fits (S : State) (n m : ℕ) : Prop := m ≤ maxfile * bsize ∧ S.freeblock + need m ≤ fssize + need n

section Loop

variable {S : State} {T : Tree} {din : Dinode} {data p : List UInt8}

/-- The length of the next piece. -/
def pieceLen (n : ℕ) (p : List UInt8) : ℕ := min p.length ((n / bsize + 1) * bsize - n)

theorem pieceLen_spec (n : ℕ) (hp : p ≠ []) :
    0 < pieceLen n p ∧ n % bsize + pieceLen n p ≤ bsize ∧ (p.take (pieceLen n p)).length = pieceLen n p := by
  have hpos := length_pos_iff.mpr hp
  have hdiv : bsize * (n / bsize) + n % bsize = n := Nat.div_add_mod n bsize
  have hmod : n % bsize < bsize := Nat.mod_lt _ (by decide)
  rw [length_take, pieceLen, add_mul, mul_comm (n / bsize)]
  omega

theorem length_piece (data p : List UInt8) :
    (data ++ p.take (pieceLen data.length p)).length = data.length + pieceLen data.length p ∧
      (p.drop (pieceLen data.length p)).length = p.length - pieceLen data.length p ∧
      data.length + pieceLen data.length p + (p.length - pieceLen data.length p) =
        data.length + p.length := by
  have hk : pieceLen data.length p ≤ p.length := min_le_left _ _
  rw [length_append, length_take_of_le hk, length_drop]
  exact ⟨rfl, rfl, by omega⟩

theorem iappendFrom_of_ne (hp : p ≠ []) (hmax : data.length / bsize < maxfile) :
    iappendFrom S din data.length p =
      match putPiece S din (data.length / bsize) (data.length % bsize)
        (p.take (pieceLen data.length p)) with
      | none => none
      | some (S, din) =>
        iappendFrom S din (data.length + pieceLen data.length p) (p.drop (pieceLen data.length p)) := by
  rw [iappendFrom, if_neg hp]
  dsimp only
  rw [if_neg (not_le.mpr hmax), Nat.mod_eq_sub_div_mul]
  rfl

theorem iappendFrom_nil {off : ℕ} : iappendFrom S din off [] = some (S, din, off) := by
  rw [iappendFrom, if_pos rfl]

theorem iappendFrom_spec (hT : T.At S.img din) (hH : T.Holds S.img data) (hR : Ready S T)
    (hfits : Fits S data.length (data.length + p.length)) :
    ∃ S' T' din', iappendFrom S din data.length p = some (S', din', data.length + p.length) ∧
      Appended S T din data p S' T' din' := by
  induction hn : p.length using Nat.strong_induction_on generalizing S T din data p with
  | _ n ih =>
    subst hn
    by_cases hp : p = []
    · subst hp
      exact ⟨S, T, din, iappendFrom_nil, .refl hT hH hR⟩
    · obtain ⟨hpos, hle, hlen⟩ := pieceLen_spec data.length hp
      have hk : pieceLen data.length p ≤ p.length := min_le_left _ _
      have hmax : data.length / bsize < maxfile := by
        rw [Nat.div_lt_iff_lt_mul (by decide)]
        have := hfits.1
        omega
      have hneed := Tree.need_add hH.length hpos hle
      have hmono := need_mono (show data.length + pieceLen data.length p ≤ data.length + p.length by omega)
      have hroom := hfits.2
      obtain ⟨S₁, T₁, din₁, hput, hA⟩ := putPiece_spec hT hH hR (p := p.take (pieceLen data.length p))
        (by omega) (by omega) hmax (by omega)
      have hfree := hA.freeblock
      rw [hlen] at hfree
      obtain ⟨hdata, hrest, htotal⟩ := length_piece data p
      obtain ⟨S₂, T₂, din₂, hloop, hA'⟩ := ih _
        (show (p.drop (pieceLen data.length p)).length < p.length by omega) hA.at_ hA.holds hA.ready
        ⟨by rw [hdata, hrest, htotal]; exact hfits.1, by rw [hdata, hrest, htotal]; omega⟩ rfl
      rw [hdata, hrest, htotal] at hloop
      refine ⟨S₂, T₂, din₂, ?_, ?_⟩
      · rw [iappendFrom_of_ne hp hmax, hput]
        exact hloop
      · have := hA.trans hA'
        rwa [take_append_drop] at this

theorem fits_of_iappendFrom (hT : T.At S.img din) (hH : T.Holds S.img data) (hR : Ready S T)
    (hlen : data.length ≤ maxfile * bsize) (h : iappendFrom S din data.length p ≠ none) :
    Fits S data.length (data.length + p.length) := by
  induction hn : p.length using Nat.strong_induction_on generalizing S T din data p with
  | _ n ih =>
    subst hn
    by_cases hp : p = []
    · subst hp
      exact ⟨hlen, Nat.add_le_add_right hR.le _⟩
    · obtain ⟨hpos, hle, hplen⟩ := pieceLen_spec data.length hp
      have hk : pieceLen data.length p ≤ p.length := min_le_left _ _
      have hmax : data.length / bsize < maxfile := by
        by_contra hge
        rw [iappendFrom, if_neg hp] at h
        exact h (if_pos (not_lt.mp hge))
      have hroom : S.freeblock + T.fresh (data.length / bsize) ≤ fssize := by
        by_contra hgt
        refine h ?_
        rw [iappendFrom_of_ne hp hmax, putPiece_none hT hR ?_ hmax (not_le.mp hgt)]
        rw [hH.length]
        exact div_le_blocksFor _
      obtain ⟨S₁, T₁, din₁, hput, hA⟩ := putPiece_spec hT hH hR (p := p.take (pieceLen data.length p))
        (by omega) (by omega) hmax hroom
      have hfree := hA.freeblock
      rw [hplen] at hfree
      obtain ⟨hdata, hrest, htotal⟩ := length_piece data p
      have hbound : data.length + pieceLen data.length p ≤ maxfile * bsize := by
        have hdiv : bsize * (data.length / bsize) + data.length % bsize = data.length :=
          Nat.div_add_mod _ _
        have : bsize * (data.length / bsize + 1) ≤ bsize * maxfile := Nat.mul_le_mul_left _ hmax
        rw [mul_add] at this
        rw [mul_comm maxfile]
        omega
      have hrec := ih _ (show (p.drop (pieceLen data.length p)).length < p.length by omega) hA.at_ hA.holds
        hA.ready (by rw [hdata]; exact hbound) (by
          rw [iappendFrom_of_ne hp hmax, hput] at h
          rw [hdata]
          exact h) rfl
      rw [hdata, hrest, htotal] at hrec
      have := hrec.2
      exact ⟨hrec.1, by omega⟩

end Loop

end Xv6.Mkfs
