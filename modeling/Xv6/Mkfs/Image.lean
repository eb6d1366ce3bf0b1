import Xv6.Mkfs.Files

/-!
# The image while `mkfs` fills it

The image is described by the list of its files (`Node`), in the order of their inode
numbers: what each of them holds, and the tree of its blocks.  `Image.Inv` says that the inodes
and blocks are as the list says, and that the blocks of all files together are those between
the metadata and `freeblock`, each of them once.

The description holds as long as inodes stay below the data blocks, which are `216` numbers:
`ialloc` does not check that.

* `iappend_spec`, `ialloc_spec` --- the functions on the description.
-/

namespace Xv6.Mkfs

open List

/-- A file in the image. -/
structure Node where
  type : ℕ
  data : List UInt8
  tree : Tree

/-- The inode on the disk. -/
def dinode (d : Img) (inum : ℕ) : Dinode := (d.block (i2b inum)).slice (islot inum) dinodeSize

/-- The file is in the image, under this number. -/
structure Node.At (N : Node) (d : Img) (inum : ℕ) : Prop where
  type : (dinode d inum).type = N.type
  nlink : (dinode d inum).nlink = 1
  size : (dinode d inum).size = N.data.length
  tree : N.tree.At d (dinode d inum)
  holds : N.tree.Holds d N.data

theorem Node.At.congr {N : Node} {d d' : Img} {inum : ℕ} (h : N.At d inum)
    (hdin : dinode d' inum = dinode d inum) (hd : ∀ b ∈ N.tree.blocks, d'.block b = d.block b) :
    N.At d' inum where
  type := by rw [hdin, h.type]
  nlink := by rw [hdin, h.nlink]
  size := by rw [hdin, h.size]
  tree := by
    rw [hdin]
    exact h.tree.congr fun b hb => hd b (Tree.mem_blocks_of_ind hb)
  holds := h.holds.congr fun b hb => hd b (Tree.mem_blocks_of_bs hb)

/-! ## Inodes -/

section Inodes

variable {d : Img} {inum i : ℕ} {din : Dinode}

theorem islot_le (inum : ℕ) : islot inum + dinodeSize ≤ bsize := by
  unfold islot dinodeSize ipb bsize dinodeSize
  omega

theorem rinode_of_lt (h : i2b inum < d.len) : rinode d inum = some (dinode d inum) := by
  rw [rinode, Img.rsect_of_lt h]
  rfl

/-- The image with another inode. -/
def setDinode (d : Img) (inum : ℕ) (din : Dinode) : Img :=
  d.wsect (i2b inum) ((d.block (i2b inum)).place (islot inum) din)

theorem winode_of_lt (h : i2b inum < d.len) : winode d inum din = some (setDinode d inum din) := by
  rw [winode, Img.rsect_of_lt h]
  rfl

theorem setDinode_len (h : i2b inum < d.len) : (setDinode d inum din).len = d.len := Img.wsect_len h

theorem setDinode_block {b : ℕ} (h : b ≠ i2b inum) : (setDinode d inum din).block b = d.block b :=
  Img.wsect_block_of_ne h

@[simp] theorem dinode_setDinode_self : dinode (setDinode d inum din) inum = din := by
  rw [dinode, setDinode, Img.wsect_block_self, Bytes.slice_place_same (islot_le inum)]

theorem dinode_setDinode_of_ne (h : i ≠ inum) : dinode (setDinode d inum din) i = dinode d i := by
  by_cases hb : i2b i = i2b inum
  · rw [dinode, dinode, setDinode, hb, Img.wsect_block_self]
    refine Bytes.slice_place_of_disjoint ?_
    unfold i2b islot dinodeSize ipb bsize dinodeSize at *
    omega
  · rw [dinode, dinode, setDinode_block hb]

end Inodes

/-! ## The description -/

/-- All blocks of the files. -/
def allBlocks (Ns : List Node) : List ℕ := Ns.flatMap fun N => N.tree.blocks

/-- The number of inodes before the data blocks. -/
def roomInodes : ℕ := (metablocks - 2) * ipb

/-- **The image is as the list says.** -/
structure Inv (S : State) (Ns : List Node) : Prop where
  len : S.img.len = fssize
  le : S.freeblock ≤ fssize
  ge : metablocks ≤ S.freeblock
  zero : ∀ b, S.freeblock ≤ b → S.img.block b = Bytes.zero
  used : S.usedblocks = S.freeblock
  freeinode : S.freeinode = Ns.length + 1
  room : Ns.length < roomInodes
  node : ∀ {k : ℕ} {N : Node}, Ns[k]? = some N → N.At S.img (k + 1)
  perm : (allBlocks Ns).Perm (List.range' metablocks (S.freeblock - metablocks))

theorem i2b_lt {inum : ℕ} (h : inum < roomInodes) : i2b inum < metablocks := by
  have hdiv : inum / ipb < metablocks - 2 := by
    rw [Nat.div_lt_iff_lt_mul (by decide)]
    exact h
  have htwo : 2 ≤ metablocks := by decide
  rw [i2b]
  omega

theorem metablocks_le : metablocks ≤ fssize := by decide

theorem perm_flatMap_set {α β : Type} {f : α → List β} {a b : α} {r : List β}
    (hf : (f b).Perm (f a ++ r)) :
    ∀ {l : List α} {k : ℕ}, l[k]? = some a → ((l.set k b).flatMap f).Perm (l.flatMap f ++ r)
  | [], k, h => by simp at h
  | x :: l, 0, h => by
    obtain rfl : x = a := by simpa using h
    simp only [set_cons_zero, flatMap_cons]
    refine (hf.append_right _).trans ?_
    simp only [append_assoc]
    exact List.Perm.append_left _ perm_append_comm
  | x :: l, k + 1, h => by
    simp only [set_cons_succ, flatMap_cons, append_assoc]
    exact List.Perm.append_left _ (perm_flatMap_set hf (by simpa using h))

namespace Inv

variable {S : State} {Ns : List Node} {k j b : ℕ} {N M : Node}

theorem lt_of_getElem? (hk : Ns[k]? = some N) : k < Ns.length := (List.getElem?_eq_some_iff.mp hk).1

theorem mem_allBlocks (hk : Ns[k]? = some N) (hb : b ∈ N.tree.blocks) : b ∈ allBlocks Ns :=
  mem_flatMap.mpr ⟨N, mem_of_getElem? hk, hb⟩

theorem mem_iff (h : Inv S Ns) : b ∈ allBlocks Ns ↔ metablocks ≤ b ∧ b < S.freeblock := by
  have := h.ge
  rw [h.perm.mem_iff, mem_range'_1]
  omega

theorem nodup (h : Inv S Ns) : (allBlocks Ns).Nodup := h.perm.nodup_iff.mpr nodup_range'

theorem disjoint (hnd : (allBlocks Ns).Nodup) (hk : Ns[k]? = some N) (hj : Ns[j]? = some M)
    (hkj : k ≠ j) (hb : b ∈ N.tree.blocks) : b ∉ M.tree.blocks := by
  have hpair := (nodup_flatMap.mp hnd).2
  rw [pairwise_iff_getElem] at hpair
  obtain ⟨hk', rfl⟩ := List.getElem?_eq_some_iff.mp hk
  obtain ⟨hj', rfl⟩ := List.getElem?_eq_some_iff.mp hj
  intro hb'
  rcases lt_or_gt_of_ne hkj with hlt | hgt
  · exact hpair k j hk' hj' hlt hb hb'
  · exact hpair j k hj' hk' hgt hb' hb

theorem ready (h : Inv S Ns) (hk : Ns[k]? = some N) : Ready S N.tree where
  len := h.len
  le := h.le
  pos := lt_of_lt_of_le (by decide) h.ge
  zero := h.zero
  below b hb := (h.mem_iff.mp (mem_allBlocks hk hb)).2

theorem grow (h : Inv S Ns) (hk : Ns[k]? = some N) {p : List UInt8} {S' : State} {T' : Tree}
    {din' : Dinode} (hA : Appended S N.tree (dinode S.img (k + 1)) N.data p S' T' din')
    (hsize : N.data.length + p.length < 256 ^ 4) :
    Inv { S' with img := setDinode S'.img (k + 1) (din'.setSize (N.data.length + p.length)) }
      (Ns.set k ⟨N.type, N.data ++ p, T'⟩) := by
  have hlt := lt_of_getElem? hk
  have hroom := h.room
  have hperm : (allBlocks (Ns.set k ⟨N.type, N.data ++ p, T'⟩)).Perm
      (List.range' metablocks (S'.freeblock - metablocks)) := by
    have hge := h.ge
    have hle := hA.le
    have hset := perm_flatMap_set (f := fun N : Node => N.tree.blocks)
      (b := ⟨N.type, N.data ++ p, T'⟩) hA.perm hk
    refine hset.trans ((h.perm.append_right _).trans ?_)
    rw [show S.freeblock = metablocks + (S.freeblock - metablocks) by omega, Nat.add_sub_cancel_left,
      List.range'_append_1, show S.freeblock - metablocks + (S'.freeblock -
        (metablocks + (S.freeblock - metablocks))) = S'.freeblock - metablocks by omega]
  have hnd := hperm.nodup_iff.mpr nodup_range'
  have hmeta : i2b (k + 1) < metablocks := i2b_lt (by omega)
  -- data blocks are not in the way of inodes
  have hdata : ∀ b ∈ T'.blocks, metablocks ≤ b := by
    intro b hb
    have hmem : b ∈ allBlocks (Ns.set k ⟨N.type, N.data ++ p, T'⟩) :=
      mem_allBlocks (k := k) (by rw [getElem?_set_self hlt]) hb
    exact (mem_range'_1.mp (hperm.mem_iff.mp hmem)).1
  have hlen' : i2b (k + 1) < S'.img.len := by
    rw [hA.ready.len]
    exact lt_of_lt_of_le hmeta metablocks_le
  have hdin : ∀ i, i < roomInodes → dinode S'.img i = dinode S.img i := by
    intro i hi
    rw [dinode, dinode, hA.frame]
    intro hb
    exact absurd (hdata _ hb) (not_le.mpr (i2b_lt hi))
  refine ⟨(setDinode_len hlen').trans hA.ready.len, hA.ready.le, h.ge.trans hA.le, fun b hb => ?_, ?_,
    ?_, by rwa [length_set], fun {j M} hj => ?_, hperm⟩
  · have hge := h.ge.trans hA.le
    have hb' : S'.freeblock ≤ b := hb
    exact (setDinode_block (by omega)).trans (hA.ready.zero b hb')
  · have h₁ := hA.freeblock
    have h₂ := hA.usedblocks
    have h₃ := h.used
    show S'.usedblocks = S'.freeblock
    omega
  · rw [length_set]
    exact hA.freeinode.trans h.freeinode
  · by_cases hjk : j = k
    · subst hjk
      rw [getElem?_set_self hlt] at hj
      obtain rfl := Option.some.inj hj
      have hold := h.node hk
      have hsame : ∀ b ∈ T'.blocks,
          (setDinode S'.img (j + 1) (din'.setSize (N.data.length + p.length))).block b = S'.img.block b :=
        fun b hb => setDinode_block (by have := hdata b hb; omega)
      refine ⟨?_, ?_, ?_, ?_, ?_⟩
      · rw [dinode_setDinode_self, ← hold.type, Dinode.type, Dinode.setSize,
          Bytes.num_setNum_of_disjoint _ _ (by omega), hA.fields 0 2 (by omega)]
        rfl
      · rw [dinode_setDinode_self, ← hold.nlink, Dinode.nlink, Dinode.setSize,
          Bytes.num_setNum_of_disjoint _ _ (by omega), hA.fields 6 2 (by omega)]
        rfl
      · rw [dinode_setDinode_self, Dinode.size_setSize hsize, length_append]
      · rw [dinode_setDinode_self]
        refine Tree.At.congr (d := S'.img) ⟨fun i hi => ?_, ?_, hA.at_.table⟩
          fun b hb => hsame b (Tree.mem_blocks_of_ind hb)
        · rw [Dinode.addrs_setSize, hA.at_.direct i hi]
        · rw [Dinode.addrs_setSize, hA.at_.single]
      · exact hA.holds.congr fun b hb => hsame b (Tree.mem_blocks_of_bs hb)
    · have hj' := hj
      rw [getElem?_set_ne (Ne.symm hjk)] at hj
      have hjlt := lt_of_getElem? hj
      refine (h.node hj).congr ?_ fun b hb => ?_
      · rw [dinode_setDinode_of_ne (by omega), hdin _ (by omega)]
      · have hmem := (h.mem_iff.mp (mem_allBlocks hj hb)).1
        refine (setDinode_block (by omega)).trans (hA.frame b ?_)
        exact disjoint hnd hj' (k := j) (j := k) (M := ⟨N.type, N.data ++ p, T'⟩)
          (by rw [getElem?_set_self hlt]) hjk hb

end Inv

/-! ## The functions -/

section Functions

variable {S : State} {Ns : List Node} {k : ℕ} {N : Node} {p : List UInt8}

section

variable (h : Inv S Ns) (hk : Ns[k]? = some N)
include h hk

theorem iappend_eq :
    iappend S (k + 1) p = (iappendFrom S (dinode S.img (k + 1)) N.data.length p).bind fun r =>
      (winode r.1.img (k + 1) (r.2.1.setSize r.2.2)).map fun d => { r.1 with img := d } := by
  have hroom := h.room
  have hlt := Inv.lt_of_getElem? hk
  have hread : rinode S.img (k + 1) = some (dinode S.img (k + 1)) := by
    refine rinode_of_lt ?_
    rw [h.len]
    exact lt_of_lt_of_le (i2b_lt (by omega)) metablocks_le
  rw [iappend, hread]
  simp only [(h.node hk).size]
  cases iappendFrom S (dinode S.img (k + 1)) N.data.length p <;> rfl

theorem iappend_spec (hfits : Fits S N.data.length (N.data.length + p.length)) :
    ∃ S' T', iappend S (k + 1) p = some S' ∧ Inv S' (Ns.set k ⟨N.type, N.data ++ p, T'⟩) := by
  have hroom := h.room
  have hlt := Inv.lt_of_getElem? hk
  obtain ⟨S₁, T₁, din₁, hloop, hA⟩ := iappendFrom_spec (h.node hk).tree (h.node hk).holds (h.ready hk) hfits
  have hblock : i2b (k + 1) < S₁.img.len := by
    rw [hA.ready.len]
    exact lt_of_lt_of_le (i2b_lt (by omega)) metablocks_le
  refine ⟨_, T₁, ?_, h.grow hk hA ?_⟩
  · rw [iappend_eq h hk, hloop]
    simp only [Option.bind_some, winode_of_lt hblock]
    rfl
  · have := hfits.1
    unfold maxfile ndirect nindirect bsize at this
    omega

theorem fits_of_iappend (hlen : N.data.length ≤ maxfile * bsize) (hne : iappend S (k + 1) p ≠ none) :
    Fits S N.data.length (N.data.length + p.length) := by
  refine fits_of_iappendFrom (h.node hk).tree (h.node hk).holds (h.ready hk) hlen fun hnone => hne ?_
  rw [iappend_eq h hk, hnone]
  rfl

end

/-- A file without blocks. -/
def Tree.empty : Tree where
  bs := []
  ind := none
  ind_isSome := by simp
  nodup := nodup_nil
  pos := by simp

theorem ialloc_spec (h : Inv S Ns) {t : ℕ} (ht : t < 256 ^ 2) (hroom : Ns.length + 1 < roomInodes) :
    ∃ S', ialloc S t = some (Ns.length + 1, S') ∧ Inv S' (Ns ++ [⟨t, [], .empty⟩]) := by
  have hmeta : i2b S.freeinode < metablocks := i2b_lt (by rw [h.freeinode]; exact hroom)
  have hblock : i2b S.freeinode < S.img.len := by
    rw [h.len]
    exact lt_of_lt_of_le hmeta metablocks_le
  let din : Dinode := ((Dinode.setType Bytes.zero t).setNlink 1).setSize 0
  refine ⟨{ S with img := setDinode S.img S.freeinode din, freeinode := S.freeinode + 1 }, ?_,
    (setDinode_len hblock).trans h.len, h.le, h.ge, fun b hb => ?_, h.used, ?_, ?_, fun {k N} hk => ?_, ?_⟩
  · rw [ialloc, winode_of_lt hblock, ← h.freeinode]
    rfl
  · have hge := h.ge
    have hb' : S.freeblock ≤ b := hb
    exact (setDinode_block (by omega)).trans (h.zero b hb')
  · simp [h.freeinode]
  · simpa using hroom
  · by_cases hlt : k < Ns.length
    · rw [getElem?_append_left hlt] at hk
      have hfree := h.freeinode
      refine (h.node hk).congr (dinode_setDinode_of_ne (by omega)) fun b hb => setDinode_block ?_
      have := (h.mem_iff.mp (Inv.mem_allBlocks hk hb)).1
      omega
    · obtain ⟨rfl, rfl⟩ : Ns.length = k ∧ (⟨t, [], .empty⟩ : Node) = N := by
        have hlen := Inv.lt_of_getElem? hk
        rw [length_append, length_singleton] at hlen
        obtain rfl : Ns.length = k := by omega
        exact ⟨rfl, by simpa using hk⟩
      rw [← h.freeinode]
      have haddr : ∀ i, din.addrs i = 0 := by
        intro i
        rw [Dinode.addrs_setSize]
        simp only [Dinode.addrs, Dinode.setNlink, Dinode.setType]
        rw [Bytes.num_setNum_of_disjoint _ _ (by omega), Bytes.num_setNum_of_disjoint _ _ (by omega),
          Bytes.num_zero]
      refine ⟨?_, ?_, ?_, ?_, ⟨show 0 = blocksFor 0 by decide, fun i hi => absurd hi (Nat.not_lt_zero i)⟩⟩
      · rw [dinode_setDinode_self, Dinode.type]
        show (((Dinode.setType Bytes.zero t).setNlink 1).setSize 0).num 0 2 = t
        rw [Dinode.setSize, Bytes.num_setNum_of_disjoint _ _ (by omega), Dinode.setNlink,
          Bytes.num_setNum_of_disjoint _ _ (by omega), Dinode.setType, Bytes.num_setNum_same (by decide),
          Nat.mod_eq_of_lt ht]
      · rw [dinode_setDinode_self, Dinode.nlink]
        show (((Dinode.setType Bytes.zero t).setNlink 1).setSize 0).num 6 2 = 1
        rw [Dinode.setSize, Bytes.num_setNum_of_disjoint _ _ (by omega), Dinode.setNlink,
          Bytes.num_setNum_same (by decide)]
        rfl
      · rw [dinode_setDinode_self]
        exact Dinode.size_setSize (by decide)
      · rw [dinode_setDinode_self]
        exact ⟨fun i _ => haddr i, haddr _, fun b hb => by cases hb⟩
  · have : allBlocks (Ns ++ [⟨t, [], .empty⟩]) = allBlocks Ns := by
      simp [allBlocks, Tree.blocks, Tree.empty]
    rw [this]
    exact h.perm

end Functions

/-! ## What the files hold -/

/-- The image holds files of these types and bytes, in the order of their numbers. -/
def Filled (S : State) (cs : List (ℕ × List UInt8)) : Prop :=
  ∃ Ns, Inv S Ns ∧ Ns.map (fun N => (N.type, N.data)) = cs ∧ ∀ N ∈ Ns, N.data.length ≤ maxfile * bsize

/-- The number of blocks of all files. -/
def total (cs : List (ℕ × List UInt8)) : ℕ := (cs.map fun c => need c.2.length).sum

theorem total_set {t : ℕ} {d : List UInt8} (d' : List UInt8) :
    ∀ {cs : List (ℕ × List UInt8)} {k : ℕ}, cs[k]? = some (t, d) →
      total (cs.set k (t, d')) + need d.length = total cs + need d'.length
  | [], k, h => by simp at h
  | c :: cs, 0, h => by
    obtain rfl : c = (t, d) := by simpa using h
    simp only [total, set_cons_zero, map_cons, sum_cons]
    omega
  | c :: cs, k + 1, h => by
    have := total_set d' (getElem?_cons_succ.symm.trans h)
    simp only [total, set_cons_succ, map_cons, sum_cons] at this ⊢
    omega

theorem Tree.Holds.length_blocks {T : Tree} {d : Img} {data : List UInt8} (h : T.Holds d data) :
    T.blocks.length = need data.length := by
  have hind := T.ind_isSome
  rw [blocks, length_append, h.length, need]
  rw [h.length] at hind
  cases hT : T.ind with
  | none =>
    rw [hT] at hind
    rw [if_neg fun hlt => by simpa using hind.mpr hlt]
    rfl
  | some b =>
    rw [hT] at hind
    rw [if_pos (hind.mp rfl)]
    rfl

namespace Filled

variable {S S' : State} {cs : List (ℕ × List UInt8)} {k t : ℕ} {d p : List UInt8}

section

variable (h : Filled S cs)
include h

theorem freeblock : S.freeblock = metablocks + total cs := by
  obtain ⟨Ns, hI, rfl, -⟩ := h
  have hlen := hI.perm.length_eq
  have hge := hI.ge
  rw [length_range', allBlocks, length_flatMap] at hlen
  have hsum : total (Ns.map fun N => (N.type, N.data)) = (Ns.map fun N => N.tree.blocks.length).sum := by
    rw [total, map_map]
    congr 1
    refine map_congr_left fun N hN => ?_
    obtain ⟨k, hk⟩ := getElem?_of_mem hN
    exact (hI.node hk).holds.length_blocks.symm
  rw [hsum]
  omega

theorem node (hk : cs[k]? = some (t, d)) :
    ∃ Ns N, Inv S Ns ∧ Ns[k]? = some N ∧ N.type = t ∧ N.data = d ∧ d.length ≤ maxfile * bsize ∧
      Ns.map (fun N => (N.type, N.data)) = cs ∧ ∀ N ∈ Ns, N.data.length ≤ maxfile * bsize := by
  obtain ⟨Ns, hI, rfl, hmax⟩ := h
  rw [getElem?_map, Option.map_eq_some_iff] at hk
  obtain ⟨N, hN, heq⟩ := hk
  obtain ⟨rfl, rfl⟩ := Prod.mk.inj heq
  exact ⟨Ns, N, hI, hN, rfl, rfl, hmax N (mem_of_getElem? hN), rfl, hmax⟩

theorem iappend_ne_none (hk : cs[k]? = some (t, d)) (hlen : d.length + p.length ≤ maxfile * bsize)
    (hroom : metablocks + total (cs.set k (t, d ++ p)) ≤ fssize) : iappend S (k + 1) p ≠ none := by
  have hfree := h.freeblock
  obtain ⟨Ns, N, hI, hN, rfl, rfl, -, -, -⟩ := h.node hk
  have htotal := total_set (N.data ++ p) hk
  rw [length_append] at htotal
  obtain ⟨S', T', hS', -⟩ := iappend_spec hI hN ⟨hlen, by omega⟩
  rw [hS']
  simp

theorem iappend (hk : cs[k]? = some (t, d)) (hS : iappend S (k + 1) p = some S') :
    Filled S' (cs.set k (t, d ++ p)) := by
  obtain ⟨Ns, N, hI, hN, rfl, rfl, hmax, rfl, hall⟩ := h.node hk
  have hfits := fits_of_iappend hI hN hmax (by rw [hS]; simp)
  obtain ⟨S₁, T', hS₁, hI'⟩ := iappend_spec hI hN hfits
  obtain rfl : S₁ = S' := Option.some.inj (hS₁.symm.trans hS)
  refine ⟨_, hI', ?_, fun M hM => ?_⟩
  · rw [map_set]
  · obtain hM | rfl := mem_or_eq_of_mem_set hM
    · exact hall M hM
    · show (N.data ++ p).length ≤ maxfile * bsize
      rw [length_append]
      exact hfits.1

theorem ialloc (ht : t < 256 ^ 2) (hroom : cs.length + 1 < roomInodes) :
    ∃ S', ialloc S t = some (cs.length + 1, S') ∧ Filled S' (cs ++ [(t, [])]) := by
  obtain ⟨Ns, hI, rfl, hmax⟩ := h
  rw [length_map] at hroom ⊢
  obtain ⟨S', hS', hI'⟩ := ialloc_spec hI ht hroom
  refine ⟨S', hS', _, hI', by simp, fun N hN => ?_⟩
  obtain hN | hN := mem_append.mp hN
  · exact hmax N hN
  · rw [mem_singleton.mp hN]
    exact Nat.zero_le _

theorem iappendAll {ps : List (List UInt8)} (hk : cs[k]? = some (t, d))
    (hS : iappendAll (k + 1) S ps = some S') : Filled S' (cs.set k (t, d ++ ps.flatten)) := by
  induction ps generalizing S cs d with
  | nil =>
    cases hS
    rw [flatten_nil, append_nil]
    have : cs.set k (t, d) = cs := by
      obtain ⟨hlt, hget⟩ := List.getElem?_eq_some_iff.mp hk
      rw [← hget, set_getElem_self]
    rwa [this]
  | cons p ps ih =>
    rw [Mkfs.iappendAll] at hS
    cases hp : Mkfs.iappend S (k + 1) p with
    | none => simp [hp] at hS
    | some S₁ =>
      rw [hp] at hS
      have hlt := (List.getElem?_eq_some_iff.mp hk).1
      have := ih (h.iappend hk hp) (by rw [getElem?_set_self hlt]) hS
      rwa [set_set, append_assoc, ← flatten_cons] at this

theorem iappendAll_ne_none {ps : List (List UInt8)} (hk : cs[k]? = some (t, d))
    (hlen : d.length + ps.flatten.length ≤ maxfile * bsize)
    (hroom : metablocks + total (cs.set k (t, d ++ ps.flatten)) ≤ fssize) :
    Mkfs.iappendAll (k + 1) S ps ≠ none := by
  induction ps generalizing S cs d with
  | nil => simp [Mkfs.iappendAll]
  | cons p ps ih =>
    rw [flatten_cons, length_append] at hlen
    rw [flatten_cons] at hroom
    have hlt := (List.getElem?_eq_some_iff.mp hk).1
    -- the file is not longer now than at the end
    have hone := total_set (d ++ p) hk
    have hend := total_set (d ++ (p ++ ps.flatten)) hk
    have hmono : need (d ++ p).length ≤ need (d ++ (p ++ ps.flatten)).length :=
      need_mono (by simp only [length_append]; omega)
    have hne := h.iappend_ne_none (p := p) hk (by omega) (by omega)
    obtain ⟨S₁, hS₁⟩ := Option.ne_none_iff_exists'.mp hne
    rw [Mkfs.iappendAll, hS₁]
    refine ih (h.iappend hk hS₁) (by rw [getElem?_set_self hlt]) ?_ ?_
    · rw [length_append]
      omega
    · rwa [set_set, append_assoc]

end

end Filled

end Xv6.Mkfs
