import Mathlib.Data.Nat.Bitwise
import Xv6.Mkfs.Run

/-!
# When the image is well formed

What the kernel expects of an image (`WellFormed`): files without holes, blocks that are not
shared and lie between the metadata and the log, a bitmap that marks just those and the
metadata, and inode numbers below `ninodes`.  `mkfs` checks none of this.

* The size of the root directory is rounded up to the next block *after* its last entry.  If
  the entries fill their last block, that next block was never allocated.
* Blocks are taken from `freeblock` up to the end of the image, and the last thirty of them
  are the log.
* Inode numbers are taken from `freeinode` without an end.

`wellFormed_iff` says that these three are all that can go wrong.
-/

namespace Xv6.Mkfs

open List

/-! ## Well-formed images -/

/-- The address of block `k` of a file, or `0`. -/
def addrOf (d : Img) (inum k : ℕ) : ℕ :=
  if k < ndirect then (dinode d inum).addrs k
  else if k < maxfile ∧ (dinode d inum).addrs ndirect ≠ 0 then
    entry (d.block ((dinode d inum).addrs ndirect)) (k - ndirect)
  else 0

/-- The blocks below the size of a file, and its indirect block. -/
def fileBlocks (d : Img) (inum : ℕ) : List ℕ :=
  (List.range (blocksFor (dinode d inum).size)).map (addrOf d inum) ++
    if (dinode d inum).addrs ndirect = 0 then [] else [(dinode d inum).addrs ndirect]

/-- The inode numbers that have been used. -/
def usedInodes (S : State) : List ℕ := List.range' 1 (S.freeinode - 1)

/-- The blocks of all files. -/
def usedBlocks (S : State) : List ℕ := (usedInodes S).flatMap (fileBlocks S.img)

/-- The bitmap marks block `b`. -/
def marked (d : Img) (b : ℕ) : Bool := ((d.block bmapblock).get (b / 8)).testBit (b % 8)

/-- **A well-formed image.** -/
structure WellFormed (S : State) : Prop where
  full : ∀ i ∈ usedInodes S, ∀ k < blocksFor (dinode S.img i).size, addrOf S.img i k ≠ 0
  nodup : (usedBlocks S).Nodup
  between : ∀ b ∈ usedBlocks S, metablocks ≤ b ∧ b < fssize - nlog
  bitmap : ∀ b < fssize, marked S.img b = true ↔ b < metablocks ∨ b ∈ usedBlocks S
  inodes : ∀ i ∈ usedInodes S, i < ninodes

/-- What the files have to meet: there are inodes for them, the entries of the root directory
do not fill their last block, and all blocks are below the log. -/
def Sound (files : List HostFile) : Prop :=
  files.length + 1 < ninodes ∧ ¬ 32 ∣ files.length + 2 ∧ metablocks + blocksOf files ≤ fssize - nlog

/-! ## The bitmap -/

theorem testBit_bitmap {used : ℕ} (h : used ≤ bpb) (j : Fin bsize) {t : ℕ} (ht : t < 8) :
    ((bitmap used) j).toNat.testBit t = decide (8 * j.val + t < used) := by
  induction used with
  | zero =>
    rw [bitmap, range_zero, foldl_nil, Bytes.zero]
    simp
  | succ n ih =>
    have hstep : bitmap (n + 1) j =
        if j.val = n / 8 then bitmap n j ||| UInt8.ofNat (1 <<< (n % 8)) else bitmap n j := by
      rw [bitmap, range_succ, foldl_append]
      rfl
    have hrec := ih (by omega)
    rw [hstep]
    split_ifs with hj
    · have hpow : 2 ^ (n % 8) < 2 ^ 8 := Nat.pow_lt_pow_right (by decide) (Nat.mod_lt _ (by decide))
      rw [UInt8.toNat_or, Nat.testBit_or, hrec, Nat.one_shiftLeft, UInt8.toNat_ofNat',
        Nat.mod_eq_of_lt hpow, Nat.testBit_two_pow, ← Bool.decide_or]
      refine decide_eq_decide.mpr ?_
      omega
    · rw [hrec]
      refine decide_eq_decide.mpr ?_
      omega

theorem marked_iff {d : Img} {used b : ℕ} (hd : d.block bmapblock = bitmap used) (hused : used ≤ bpb)
    (hb : b < fssize) : marked d b = true ↔ b < used := by
  have hlt : b / 8 < bsize := by
    unfold fssize at hb
    unfold bsize
    omega
  rw [marked, hd, Bytes.get, dif_pos hlt, testBit_bitmap hused ⟨b / 8, hlt⟩ (Nat.mod_lt _ (by decide)),
    decide_eq_true_iff, Nat.div_add_mod]

/-! ## Files of the image -/

section Tree

variable {d : Img} {inum k : ℕ} {T : Tree}

theorem addrOf_eq (h : T.At d (dinode d inum)) (hk : k < maxfile) : addrOf d inum k = T.addr k := by
  rw [addrOf]
  split_ifs with hd hi
  · exact h.direct k hd
  · have hsingle := h.single
    cases hT : T.ind with
    | none =>
      rw [hT] at hsingle
      exact absurd hsingle hi.2
    | some b =>
      rw [hT] at hsingle
      rw [hsingle]
      show entry (d.block b) (k - ndirect) = T.addr k
      rw [h.table b hT _ (by unfold maxfile at hk; omega), Nat.add_sub_cancel' (not_lt.mp hd)]
  · have hzero : (dinode d inum).addrs ndirect = 0 := by
      by_contra hne
      exact hi ⟨hk, hne⟩
    rw [h.single] at hzero
    refine (Tree.addr_eq_zero ?_).symm
    have hnone : ¬ T.ind.isSome = true := by
      intro hsome
      obtain ⟨b, hb⟩ := Option.isSome_iff_exists.mp hsome
      rw [hb] at hzero
      exact absurd hzero (T.pos b (Tree.mem_blocks_of_ind hb)).ne'
    rw [T.ind_isSome] at hnone
    omega

theorem range_map_addr (T : Tree) : (List.range T.bs.length).map T.addr = T.bs := by
  refine ext_getElem (by simp) fun i hi hi' => ?_
  rw [getElem_map, getElem_range, Tree.addr, getElem?_eq_getElem hi']
  rfl

theorem fileBlocks_eq (h : T.At d (dinode d inum)) (hle : T.bs.length ≤ maxfile)
    (hsize : blocksFor (dinode d inum).size = T.bs.length) : fileBlocks d inum = T.blocks := by
  have hmap : (List.range T.bs.length).map (addrOf d inum) = T.bs := by
    rw [← range_map_addr T, length_map, length_range]
    refine map_congr_left fun i hi => addrOf_eq h ?_
    have := mem_range.mp hi
    omega
  rw [fileBlocks, hsize, hmap, Tree.blocks, h.single]
  cases hT : T.ind with
  | none => rfl
  | some b =>
    have := (T.pos b (Tree.mem_blocks_of_ind hT)).ne'
    simp [this]

end Tree

/-! ## The finished image -/

namespace Finished

variable {files : List HostFile} {S₀ S : State} {Ns : List Node} {k : ℕ} {N : Node}

section

variable (h : Finished S₀ S) (hI : Inv S₀ Ns)
include h hI

theorem tree (hk : Ns[k]? = some N) (hlow : i2b (k + 1) < bmapblock) :
    N.tree.At S.img (dinode S.img (k + 1)) := by
  have hN := (hI.node hk).tree
  have hdata : ∀ b, N.tree.ind = some b → S.img.block b = S₀.img.block b := fun b hb =>
    h.data b (hI.mem_iff.mp (Inv.mem_allBlocks hk (Tree.mem_blocks_of_ind hb))).1
  by_cases hroot : k + 1 = rootino
  · rw [hroot] at hN ⊢
    rw [h.root]
    refine Tree.At.congr (d := S₀.img) ⟨fun i hi => ?_, ?_, hN.table⟩ hdata
    · rw [rounded, Dinode.addrs_setSize, hN.direct i hi]
    · rw [rounded, Dinode.addrs_setSize, hN.single]
  · rw [h.inode _ hroot hlow]
    exact hN.congr hdata

theorem size (hk : Ns[k]? = some N) (hpos : 0 < k) (hlow : i2b (k + 1) < bmapblock) :
    (dinode S.img (k + 1)).size = N.data.length := by
  rw [h.inode _ (by unfold rootino; omega) hlow, (hI.node hk).size]

theorem size_root (hk : Ns[0]? = some N) (hlen : N.data.length ≤ maxfile * bsize) :
    (dinode S.img rootino).size = (N.data.length / bsize + 1) * bsize := by
  have hsize : (dinode S₀.img rootino).size = N.data.length := (hI.node hk).size
  rw [h.root, rounded, hsize, Dinode.size_setSize]
  unfold maxfile ndirect nindirect bsize at *
  omega

end

end Finished

theorem usedBlocks_eq {S : State} {Ns : List Node} (hfree : S.freeinode = Ns.length + 1)
    (h : ∀ {k : ℕ} {N : Node}, Ns[k]? = some N → fileBlocks S.img (k + 1) = N.tree.blocks) :
    usedBlocks S = allBlocks Ns := by
  rw [usedBlocks, usedInodes, allBlocks, flatMap_def, flatMap_def]
  congr 1
  refine ext_getElem (by simp [hfree]) fun k hk hk' => ?_
  rw [length_map] at hk'
  rw [getElem_map, getElem_map, getElem_range', add_comm, one_mul]
  exact h (getElem?_eq_getElem hk')

/-- The image that `mkfs` has made of some files, when their inodes are before the bitmap. -/
structure Made (files : List HostFile) (S S₀ : State) (Ns : List Node) : Prop where
  inv : Inv S₀ Ns
  finished : Finished S₀ S
  length : Ns.length = files.length + 1
  freeinode : S.freeinode = files.length + 2
  freeblock : S₀.freeblock = metablocks + blocksOf files
  max : ∀ N ∈ Ns, N.data.length ≤ maxfile * bsize
  contents : Ns.map (fun N => (N.type, N.data)) = contents files
  low : ∀ k < Ns.length, i2b (k + 1) < bmapblock

/-- The number of inodes before the bitmap. -/
def lowInodes : ℕ := (bmapblock - 2) * ipb

theorem made_of_mkfs {files : List HostFile} {S : State} (hn : files.length + 1 < lowInodes)
    (hS : mkfs files = some S) : ∃ S₀ Ns, Made files S S₀ Ns := by
  have hroom : files.length + 1 < roomInodes := lt_of_lt_of_le hn (by decide)
  obtain ⟨S₀, hfilled, hfin⟩ := finished_of_mkfs hroom hS
  have hfree := hfilled.freeblock
  rw [total_contents] at hfree
  obtain ⟨Ns, hI, hmap, hmax⟩ := hfilled
  have hlen : Ns.length = files.length + 1 := by
    rw [← length_map (f := fun N : Node => (N.type, N.data)), hmap, contents, length_cons,
      length_map]
  refine ⟨S₀, Ns, hI, hfin, hlen, (counts_mkfs hS).1, hfree, hmax, hmap, fun k hk => ?_⟩
  · have hlt : (k + 1) / ipb < bmapblock - 2 := by
      rw [Nat.div_lt_iff_lt_mul (by decide)]
      exact lt_of_le_of_lt (by omega) hn
    have : 2 ≤ bmapblock := by decide
    rw [i2b]
    omega

namespace Made

variable {files : List HostFile} {S S₀ : State} {Ns : List Node} {k : ℕ} {N : Node}

section

variable (h : Made files S S₀ Ns)
include h

theorem tree (hk : Ns[k]? = some N) : N.tree.At S.img (dinode S.img (k + 1)) :=
  h.finished.tree h.inv hk (h.low k (Inv.lt_of_getElem? hk))

theorem exists_node {t : ℕ} {d : List UInt8} (hk : (Mkfs.contents files)[k]? = some (t, d)) :
    ∃ N, Ns[k]? = some N ∧ N.type = t ∧ N.data = d := by
  rw [← h.contents, getElem?_map, Option.map_eq_some_iff] at hk
  obtain ⟨N, hN, heq⟩ := hk
  exact ⟨N, hN, (Prod.mk.inj heq).1, (Prod.mk.inj heq).2⟩

theorem root : ∃ R, Ns[0]? = some R ∧ R.data.length = 16 * (files.length + 2) := by
  obtain ⟨R, hR, -, hdata⟩ := h.exists_node (k := 0) rfl
  exact ⟨R, hR, by rw [hdata, length_rootBytes]⟩

theorem length_bs (hk : Ns[k]? = some N) :
    N.tree.bs.length = blocksFor N.data.length ∧ N.tree.bs.length ≤ maxfile := by
  have hle := h.max N (mem_of_getElem? hk)
  have heq := (h.inv.node hk).holds.length
  refine ⟨heq, ?_⟩
  rw [heq]
  unfold blocksFor maxfile ndirect nindirect bsize at *
  omega

theorem size_root : (dinode S.img rootino).size = ((files.length + 2) / 32 + 1) * bsize := by
  obtain ⟨R, hR, hlen⟩ := h.root
  rw [h.finished.size_root h.inv hR (h.max R (mem_of_getElem? hR)), hlen]
  unfold bsize
  omega

theorem size_eq (h32 : ¬ 32 ∣ files.length + 2) (hk : Ns[k]? = some N) :
    blocksFor (dinode S.img (k + 1)).size = N.tree.bs.length := by
  rw [(h.length_bs hk).1]
  cases k with
  | zero =>
    obtain ⟨R, hR, hlen⟩ := h.root
    obtain rfl : R = N := Option.some.inj (hR.symm.trans hk)
    rw [show 0 + 1 = rootino from rfl, h.size_root, hlen]
    unfold blocksFor bsize
    omega
  | succ k => rw [h.finished.size h.inv hk (Nat.succ_pos k) (h.low _ (Inv.lt_of_getElem? hk))]

theorem usedBlocks_eq (h32 : ¬ 32 ∣ files.length + 2) : usedBlocks S = allBlocks Ns := by
  have h₁ := h.length
  have h₂ := h.freeinode
  exact Mkfs.usedBlocks_eq (by omega) fun hk =>
    fileBlocks_eq (h.tree hk) (h.length_bs hk).2 (h.size_eq h32 hk)

theorem exists_of_mem {i : ℕ} (hi : i ∈ usedInodes S) : ∃ k N, i = k + 1 ∧ Ns[k]? = some N := by
  have h₁ := h.length
  have h₂ := h.freeinode
  rw [usedInodes, mem_range'_1] at hi
  obtain ⟨k, rfl⟩ : ∃ k, i = k + 1 := ⟨i - 1, by omega⟩
  exact ⟨k, Ns[k], rfl, getElem?_eq_getElem (by omega)⟩

theorem addr_root (h32 : 32 ∣ files.length + 2) (hlow : files.length + 1 < ninodes) :
    addrOf S.img rootino ((files.length + 2) / 32) = 0 := by
  obtain ⟨R, hR, hlen⟩ := h.root
  have hle : (files.length + 2) / 32 < maxfile := by
    unfold ninodes at hlow
    unfold maxfile ndirect nindirect bsize
    omega
  refine (addrOf_eq (h.tree hR) hle).trans (Tree.addr_eq_zero ?_)
  rw [(h.length_bs hR).1, hlen]
  unfold blocksFor bsize
  omega

end

end Made

theorem sound_of_wellFormed {files : List HostFile} {S : State} (hS : mkfs files = some S)
    (hW : WellFormed S) : Sound files := by
  have hfree := (counts_mkfs hS).1
  have hlow : files.length + 1 < ninodes := by
    refine hW.inodes _ ?_
    rw [usedInodes, mem_range'_1]
    omega
  obtain ⟨S₀, Ns, h⟩ := made_of_mkfs (lt_of_lt_of_le hlow (by decide)) hS
  have h32 : ¬ 32 ∣ files.length + 2 := by
    intro h32
    refine hW.full rootino ?_ ((files.length + 2) / 32) ?_ (h.addr_root h32 hlow)
    · rw [usedInodes, mem_range'_1]
      unfold rootino
      omega
    · rw [h.size_root]
      unfold blocksFor bsize
      omega
  refine ⟨hlow, h32, ?_⟩
  by_contra hgt
  -- the last block that was taken is in the log
  have hmem : S₀.freeblock - 1 ∈ usedBlocks S := by
    rw [h.usedBlocks_eq h32, h.inv.mem_iff, h.freeblock]
    have : metablocks < fssize - nlog := by decide
    omega
  have := (hW.between _ hmem).2
  rw [h.freeblock] at this
  omega

theorem wellFormed_of_sound {files : List HostFile} {S : State} (hS : mkfs files = some S)
    (hs : Sound files) : WellFormed S := by
  obtain ⟨hlow, h32, hlog⟩ := hs
  obtain ⟨S₀, Ns, h⟩ := made_of_mkfs (lt_of_lt_of_le hlow (by decide)) hS
  have heq := h.usedBlocks_eq h32
  refine ⟨fun i hi k hk => ?_, ?_, fun b hb => ?_, fun b hb => ?_, fun i hi => ?_⟩
  · obtain ⟨j, N, rfl, hN⟩ := h.exists_of_mem hi
    rw [h.size_eq h32 hN] at hk
    rw [addrOf_eq (h.tree hN) (lt_of_lt_of_le hk (h.length_bs hN).2)]
    exact (Tree.addr_pos hk).ne'
  · rw [heq]
    exact h.inv.nodup
  · rw [heq, h.inv.mem_iff, h.freeblock] at hb
    exact ⟨hb.1, lt_of_lt_of_le hb.2 hlog⟩
  · have hle : S₀.usedblocks ≤ bpb := by
      rw [h.inv.used]
      exact h.inv.le.trans (by decide)
    rw [marked_iff h.finished.bitmap hle hb, heq, h.inv.mem_iff, h.inv.used]
    have := h.inv.ge
    omega
  · obtain ⟨j, N, rfl, hN⟩ := h.exists_of_mem hi
    have h₁ := h.length
    have := Inv.lt_of_getElem? hN
    omega

/-- **Where `mkfs` makes an image, it is well formed just if the files are `Sound`.** -/
theorem wellFormed_iff {files : List HostFile} {S : State} (hS : mkfs files = some S) :
    WellFormed S ↔ Sound files :=
  ⟨sound_of_wellFormed hS, wellFormed_of_sound hS⟩

/-- A host file that is read in `n` chunks of a block each. -/
def wholeBlocks (n : ℕ) : HostFile where
  name := [97]
  opens := true
  chunks := List.replicate n (List.replicate bsize 0)
  chunk_len c hc := by
    rw [eq_of_mem_replicate hc, length_replicate]
    exact ⟨by decide, le_rfl⟩

theorem length_wholeBlocks (n : ℕ) : (wholeBlocks n).bytes.length = n * bsize := by
  simp [HostFile.bytes, wholeBlocks]

theorem blocksOf_wholeBlocks (m n : ℕ) :
    blocksOf (List.replicate m (wholeBlocks n)) = need (16 * (m + 2)) + m * need (n * bsize) := by
  rw [blocksOf, map_replicate, sum_replicate_nat, length_replicate, length_wholeBlocks]

theorem mkfs_wholeBlocks {m n : ℕ} (hm : m + 1 < roomInodes) (hn : n ≤ maxfile)
    (hfit : metablocks + (need (16 * (m + 2)) + m * need (n * bsize)) ≤ fssize) :
    ∃ S, mkfs (List.replicate m (wholeBlocks n)) = some S := by
  refine mkfs_ne_none (by rwa [length_replicate]) (fun f hf => ?_) ?_
  · obtain rfl := eq_of_mem_replicate hf
    refine ⟨by simp [wholeBlocks], rfl, ?_⟩
    rw [length_wholeBlocks]
    exact Nat.mul_le_mul_right _ hn
  · rw [blocksOf_wholeBlocks]
    exact hfit

theorem wellFormed_iff_twoFiles :
    ∃ S, mkfs (List.replicate 2 (wholeBlocks 13)) = some S ∧ WellFormed S := by
  obtain ⟨S, hS⟩ := mkfs_wholeBlocks (m := 2) (n := 13) (by decide) (by decide) (by decide)
  refine ⟨S, hS, (wellFormed_iff hS).mpr ⟨by decide, by decide, ?_⟩⟩
  rw [blocksOf_wholeBlocks]
  decide

/-- **`mkfs` makes images that are not well formed**: from thirty empty files the root
directory has a hole, from seven of the largest files blocks lie in the log, and with `199`
files there are too many inodes. -/
theorem mkfs_not_wellFormed :
    (∃ S, mkfs (List.replicate 30 (wholeBlocks 0)) = some S ∧ ¬ WellFormed S) ∧
    (∃ S, mkfs (List.replicate 7 (wholeBlocks 140)) = some S ∧ ¬ WellFormed S) ∧
    ∃ S, mkfs (List.replicate 199 (wholeBlocks 0)) = some S ∧ ¬ WellFormed S := by
  refine ⟨?_, ?_, ?_⟩
  · obtain ⟨S, hS⟩ := mkfs_wholeBlocks (m := 30) (n := 0) (by decide) (by decide) (by decide)
    refine ⟨S, hS, fun hW => ?_⟩
    exact (sound_of_wellFormed hS hW).2.1 (by decide)
  · obtain ⟨S, hS⟩ := mkfs_wholeBlocks (m := 7) (n := 140) (by decide) (by decide) (by decide)
    refine ⟨S, hS, fun hW => ?_⟩
    have hlog := (sound_of_wellFormed hS hW).2.2
    rw [blocksOf_wholeBlocks] at hlog
    exact absurd hlog (by decide)
  · obtain ⟨S, hS⟩ := mkfs_wholeBlocks (m := 199) (n := 0) (by decide) (by decide) (by decide)
    refine ⟨S, hS, fun hW => ?_⟩
    have hlow := (sound_of_wellFormed hS hW).1
    rw [length_replicate] at hlow
    exact absurd hlow (by decide)

end Xv6.Mkfs
