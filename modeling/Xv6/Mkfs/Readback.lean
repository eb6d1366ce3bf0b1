import Xv6.Mkfs.WellFormed

/-!
# The kernel reads what `mkfs` wrote

`ilock`, `bmap` and `readi` of `fs.c`, as far as they read: the kernel finds an inode through
`IBLOCK`, a block through the addresses or the indirect block, and copies from one block after
the other.  Where `bmap` finds no address it allocates a block, and that is not reading any
more: the model gives up there.

* `readi_spec` --- a file that is in the image is read, any part of it.
-/

namespace Xv6.Mkfs

open List

/-! ## `fs.c` -/

/-- What `ilock` has read of an inode. -/
structure Inode where
  type : ℕ
  size : ℕ
  addrs : ℕ → ℕ

/-- `ilock` of an inode that is not in the cache; nothing if it panics, because the inode is
free. -/
def ilock (d : Img) (inum : ℕ) : Option Inode :=
  let dip : Dinode := (d.block (iblock inum)).slice (dinodeSize * (inum % ipb)) dinodeSize
  if dip.type = 0 then none else some ⟨dip.type, dip.size, dip.addrs⟩

/-- `bmap`, where there is a block. -/
def bmap (d : Img) (ip : Inode) (bn : ℕ) : Option ℕ :=
  if bn < ndirect then
    if ip.addrs bn = 0 then none else some (ip.addrs bn)
  else if bn - ndirect < nindirect then
    if ip.addrs ndirect = 0 then none
    else if entry (d.block (ip.addrs ndirect)) (bn - ndirect) = 0 then none
    else some (entry (d.block (ip.addrs ndirect)) (bn - ndirect))
  else none

/-- The loop of `readi`. -/
def readFrom (d : Img) (ip : Inode) (off n : ℕ) : Option (List UInt8) :=
  if n = 0 then some []
  else
    match bmap d ip (off / bsize) with
    | none => none
    | some b =>
      let m := min n (bsize - off % bsize)
      match readFrom d ip (off + m) (n - m) with
      | none => none
      | some bs => some ((List.range m).map (fun i => (d.block b).byte (off % bsize + i)) ++ bs)
termination_by n
decreasing_by
  have := Nat.mod_lt off (show 0 < bsize by decide)
  omega

/-- What `readi` returns: `-1`, or some bytes; or it goes on to a device or to `balloc`. -/
inductive Outcome where
  | fails
  | bytes (bs : List UInt8)
  | elsewhere
  deriving DecidableEq

def readi (d : Img) (ip : Inode) (off n : ℕ) : Outcome :=
  if ip.type = 3 then .elsewhere
  else if ip.size < off ∨ (off + n) % 2 ^ 32 < off then .fails
  else
    match readFrom d ip off (if ip.size < (off + n) % 2 ^ 32 then ip.size - off else n) with
    | none => .elsewhere
    | some bs => .bytes bs

/-! ## Reading a file of the image -/

section Read

variable {d : Img} {inum off n : ℕ} {T : Tree} {data : List UInt8} {ip : Inode}

theorem ilock_eq (ht : (dinode d inum).type ≠ 0) :
    ilock d inum = some ⟨(dinode d inum).type, (dinode d inum).size, (dinode d inum).addrs⟩ :=
  if_neg ht

theorem bmap_eq {k : ℕ} (h : T.At d (dinode d inum)) (haddrs : ip.addrs = (dinode d inum).addrs)
    (hk : k < T.bs.length) (hmax : k < maxfile) : bmap d ip k = some (T.addr k) := by
  have hpos := (Tree.addr_pos hk).ne'
  rw [bmap, haddrs]
  split_ifs with hd hz hi hz hz
  · rw [h.direct k hd] at hz
    exact absurd hz hpos
  · rw [h.direct k hd]
  · obtain ⟨b, hb⟩ := Option.isSome_iff_exists.mp (T.ind_isSome.mpr (by omega))
    rw [h.single, hb] at hz
    exact absurd hz (T.pos b (Tree.mem_blocks_of_ind hb)).ne'
  all_goals
    have haddr := addrOf_eq h hmax
    rw [addrOf, if_neg hd] at haddr
  · rw [if_pos ⟨hmax, by assumption⟩, hz] at haddr
    exact absurd haddr.symm hpos
  · rw [if_pos ⟨hmax, by assumption⟩] at haddr
    rw [haddr]
  · unfold maxfile at hmax
    omega

section

variable (h : T.At d (dinode d inum))
  (hH : T.Holds d data)
  (haddrs : ip.addrs = (dinode d inum).addrs)
  (hmax : data.length ≤ maxfile * bsize)
include h hH haddrs hmax

theorem readFrom_spec (hn : off + n ≤ data.length) :
    readFrom d ip off n = some ((data.drop off).take n) := by
  induction hk : n using Nat.strong_induction_on generalizing off n with
  | _ n ih =>
    subst hk
    rw [readFrom]
    split_ifs with h0
    · rw [h0, take_zero]
    · have hmod := Nat.mod_lt off (show 0 < bsize by decide)
      have hlt : off / bsize < T.bs.length := by
        rw [hH.length]
        unfold blocksFor bsize
        omega
      have hdiv : off / bsize < maxfile := by
        rw [Nat.div_lt_iff_lt_mul (by decide)]
        omega
      have hm : min n (bsize - off % bsize) ≤ n := min_le_left _ _
      rw [bmap_eq h haddrs hlt hdiv]
      dsimp only
      rw [ih (n - min n (bsize - off % bsize)) (by omega) (by omega) rfl]
      simp only [Option.some.injEq]
      -- the bytes that stand in this block
      have hpiece : (List.range (min n (bsize - off % bsize))).map
          (fun i => (d.block (T.addr (off / bsize))).byte (off % bsize + i)) =
            (data.drop off).take (min n (bsize - off % bsize)) := by
        refine ext_getElem ?_ fun i hi hi' => ?_
        · rw [length_map, length_range, length_take, length_drop]
          omega
        · rw [length_map, length_range] at hi
          have hbyte := hH.byte (off + i) (by omega)
          have hq : (off + i) / bsize = off / bsize := by
            unfold bsize at *
            omega
          have hr : (off + i) % bsize = off % bsize + i := by
            unfold bsize at *
            omega
          rw [hq, hr, getElem?_eq_getElem (show off + i < data.length by omega)] at hbyte
          rw [getElem_map, getElem_range, getElem_take, getElem_drop]
          exact hbyte
      rw [hpiece, ← drop_drop, ← take_add, Nat.add_sub_cancel' hm]

theorem readi_spec (htype : ip.type ≠ 3) (hoff : off ≤ ip.size) (hword : off + n < 2 ^ 32)
    (hn : min n (ip.size - off) ≤ data.length - off) (hle : off ≤ data.length) :
    readi d ip off n = .bytes ((data.drop off).take (min n (ip.size - off))) := by
  rw [readi, if_neg htype, Nat.mod_eq_of_lt hword, if_neg (by omega)]
  have hlen : (if ip.size < off + n then ip.size - off else n) = min n (ip.size - off) := by
    split_ifs <;> omega
  rw [hlen, readFrom_spec h hH haddrs hmax (by omega)]

end

end Read

/-! ## Host files -/

/-- The kernel finds file `f` under number `inum`: it is a file, with the size of `f`, and any
part of it that is read is that part of `f`. -/
def FindsFile (d : Img) (inum : ℕ) (f : HostFile) : Prop :=
  ∃ ip, ilock d inum = some ip ∧ ip.type = 2 ∧ ip.size = f.bytes.length ∧
    ∀ off n, off ≤ f.bytes.length → off + n < 2 ^ 32 →
      readi d ip off n = .bytes ((f.bytes.drop off).take n)

/-- Entry `i` of the root directory is this one. -/
def FindsEntry (d : Img) (i : ℕ) (entry : List UInt8) : Prop :=
  ∃ rp, ilock d rootino = some rp ∧ readi d rp (16 * i) 16 = .bytes entry

/-- **The kernel reads what `mkfs` wrote**: `mkfs` makes an image, and the kernel finds each of
the files in it, and its number and name in the root directory. -/
def Reads (files : List HostFile) : Prop :=
  ∃ S, mkfs files = some S ∧ ∀ k f, files[k]? = some f →
    FindsFile S.img (k + 2) f ∧ FindsEntry S.img (k + 2) (dirent (k + 2) f.target)

theorem entry_rootBytes {files : List HostFile} {k : ℕ} {f : HostFile} (hk : files[k]? = some f) :
    ((rootBytes files).drop (16 * (k + 2))).take 16 = dirent (k + 2) f.target := by
  obtain ⟨hlt, hget⟩ := List.getElem?_eq_some_iff.mp hk
  have hsplit : files = files.take k ++ f :: files.drop (k + 1) := by
    rw [← hget, getElem_cons_drop, take_append_drop]
  have hlen : (files.take k).length = k := by
    rw [length_take]
    omega
  have hroot : rootBytes files = (dirent 1 [46] ++ dirent 1 [46, 46] ++ entries 2 (files.take k)) ++
      (dirent (k + 2) f.target ++ entries (k + 3) (files.drop (k + 1))) := by
    conv_lhs => rw [rootBytes, hsplit, entries_append, entries, hlen, add_comm 2 k]
    simp only [append_assoc]
  rw [hroot, drop_left', take_left' (length_dirent _ _)]
  rw [length_append, length_append, length_dirent, length_dirent, length_entries, hlen]
  omega

section Made

variable {files : List HostFile} {S S₀ : State} {Ns : List Node} {k : ℕ} {N : Node}

theorem Made.holds (h : Made files S S₀ Ns) (hk : Ns[k]? = some N) : N.tree.Holds S.img N.data :=
  (h.inv.node hk).holds.congr fun b hb =>
    h.finished.data b (h.inv.mem_iff.mp (Inv.mem_allBlocks hk (Tree.mem_blocks_of_bs hb))).1

theorem Made.findsFile (h : Made files S S₀ Ns) {f : HostFile} (hk : files[k]? = some f) :
    FindsFile S.img (k + 2) f := by
  obtain ⟨N, hN, htype, hdata⟩ := h.exists_node (k := k + 1) (t := 2) (d := f.bytes)
    (by simp [Mkfs.contents, hk])
  have hlow := h.low _ (Inv.lt_of_getElem? hN)
  have hsize : (dinode S.img (k + 2)).size = f.bytes.length := by
    rw [← hdata]
    exact h.finished.size h.inv hN (Nat.succ_pos k) hlow
  have htype' : (dinode S.img (k + 2)).type = 2 := by
    rw [h.finished.inode _ (by unfold rootino; omega) hlow, (h.inv.node hN).type, htype]
  have hmax := h.max N (mem_of_getElem? hN)
  refine ⟨_, ilock_eq (by rw [htype']; decide), htype', hsize, fun off n hoff hword => ?_⟩
  rw [readi_spec (h.tree hN) (h.holds hN) rfl hmax]
  · rw [hdata]
    dsimp only
    rw [hsize, ← take_take, take_of_length_le (l := f.bytes.drop off) (by rw [length_drop])]
  · show (dinode S.img (k + 2)).type ≠ 3
    rw [htype']
    decide
  · exact hoff.trans hsize.ge
  · exact hword
  · show min n ((dinode S.img (k + 2)).size - off) ≤ N.data.length - off
    rw [hdata, hsize]
    exact min_le_right _ _
  · rw [hdata]
    exact hoff

theorem Made.findsEntry (h : Made files S S₀ Ns) (hlow : files.length + 1 < lowInodes) {f : HostFile}
    (hk : files[k]? = some f) : FindsEntry S.img (k + 2) (dirent (k + 2) f.target) := by
  obtain ⟨R, hR, htype, hdata⟩ := h.exists_node (k := 0) rfl
  have hlt := (List.getElem?_eq_some_iff.mp hk).1
  have hlen : R.data.length = 16 * (files.length + 2) := by rw [hdata, length_rootBytes]
  have hsize := h.size_root
  have htype' : (dinode S.img rootino).type = 1 := by
    have hold : (dinode S₀.img rootino).type = 1 := by
      rw [← htype]
      exact (h.inv.node hR).type
    rw [h.finished.root, rounded, Dinode.type, Dinode.setSize, Bytes.num_setNum_of_disjoint _ _ (by omega)]
    exact hold
  have hroom : 16 * (k + 2) + 16 ≤ ((files.length + 2) / 32 + 1) * bsize := by
    unfold bsize
    omega
  refine ⟨_, ilock_eq (by rw [htype']; decide), ?_⟩
  rw [readi_spec (h.tree hR) (h.holds hR) rfl (h.max R (mem_of_getElem? hR))]
  · dsimp only
    rw [hdata, hsize, min_eq_left (by omega), entry_rootBytes hk]
  · show (dinode S.img rootino).type ≠ 3
    rw [htype']
    decide
  · show 16 * (k + 2) ≤ (dinode S.img rootino).size
    rw [hsize]
    omega
  · have : lowInodes = 208 := by decide
    omega
  · show min 16 ((dinode S.img rootino).size - 16 * (k + 2)) ≤ R.data.length - 16 * (k + 2)
    rw [hlen]
    omega
  · rw [hlen]
    omega

end Made

/-- The first bytes of the bitmap are full: read as an inode, it has no type. -/
theorem type_bitmap {d : Img} {used : ℕ} (hd : d.block bmapblock = bitmap used) (hge : 16 ≤ used)
    (hle : used ≤ bpb) : (dinode d lowInodes).type = 65535 := by
  have hbyte : ∀ j : Fin bsize, j.val < 2 → (bitmap used) j = 255 := by
    intro j hj
    refine UInt8.toNat_inj.mp (Nat.eq_of_testBit_eq fun t => ?_)
    by_cases ht : t < 8
    · rw [testBit_bitmap hle j ht, decide_eq_true (by omega)]
      have : ∀ t < 8, (255 : UInt8).toNat.testBit t = true := by decide
      exact (this t ht).symm
    · have hpow : 2 ^ 8 ≤ 2 ^ t := Nat.pow_le_pow_right (by decide) (not_lt.mp ht)
      rw [Nat.testBit_lt_two_pow (lt_of_lt_of_le (UInt8.toNat_lt _) hpow),
        Nat.testBit_lt_two_pow (lt_of_lt_of_le (UInt8.toNat_lt _) hpow)]
  have hblock : (dinode d lowInodes).type = (bitmap used).num 0 2 := by
    rw [Dinode.type, dinode, Bytes.num_slice (by decide), ← hd]
    rfl
  have h0 : (bitmap used).get 0 = 255 := by
    rw [Bytes.get, dif_pos (by decide), hbyte ⟨0, by decide⟩ (by decide)]
    rfl
  have h1 : (bitmap used).get 1 = 255 := by
    rw [Bytes.get, dif_pos (by decide), hbyte ⟨1, by decide⟩ (by decide)]
    rfl
  rw [hblock]
  simp only [Bytes.num, h0, h1]

/-- **The kernel reads what `mkfs` wrote, just if the inodes stop before the bitmap**: for host
files that can be opened, are not too long and fit the data area together. -/
theorem reads_iff {files : List HostFile}
    (hfiles : ∀ f ∈ files, 47 ∉ f.name ∧ f.opens = true ∧ f.bytes.length ≤ maxfile * bsize)
    (hfit : metablocks + blocksOf files ≤ fssize - nlog) : Reads files ↔ files.length ≤ 206 := by
  have hlow : lowInodes = 208 := by decide
  constructor
  · rintro ⟨S, hS, hreads⟩
    by_contra hgt
    -- file `206` has the first inode that the bitmap is written over
    have hk : files[206]? = some (files[206]) := getElem?_eq_getElem (by omega)
    obtain ⟨⟨ip, hip, htype, -⟩, -⟩ := hreads 206 _ hk
    obtain ⟨-, hge, hle, hbitmap⟩ := counts_mkfs hS
    have h16 : 16 ≤ metablocks := by decide
    have htype' := type_bitmap hbitmap (by omega) hle.le
    rw [hlow] at htype'
    rw [ilock_eq (show (dinode S.img (206 + 2)).type ≠ 0 by rw [htype']; decide)] at hip
    obtain rfl := Option.some.inj hip
    have h2 : (dinode S.img 208).type = 2 := htype
    rw [htype'] at h2
    exact absurd h2 (by decide)
  · intro hle
    have hroom : files.length + 1 < lowInodes := by omega
    obtain ⟨S, hS⟩ := mkfs_ne_none (lt_of_lt_of_le hroom (by decide)) hfiles (hfit.trans (by decide))
    obtain ⟨S₀, Ns, h⟩ := made_of_mkfs hroom hS
    exact ⟨S, hS, fun k f hk => ⟨h.findsFile hk, h.findsEntry hroom hk⟩⟩

theorem reads_iff_twoFiles : Reads (List.replicate 2 (wholeBlocks 13)) := by
  refine (reads_iff (fun f hf => ?_) ?_).mpr (by decide)
  · obtain rfl := eq_of_mem_replicate hf
    exact ⟨by simp [wholeBlocks], rfl, by rw [length_wholeBlocks]; decide⟩
  · rw [blocksOf_wholeBlocks]
    decide

/-- A file of a block, after `206` empty ones. -/
def lastOfMany : List HostFile := List.replicate 206 (wholeBlocks 0) ++ [wholeBlocks 1]

/-- **Of `207` files the kernel does not read the last one**: `mkfs` makes the image, and all
files fit the data area, but the inode has the size `0`. -/
theorem last_not_read :
    (∀ f ∈ lastOfMany, 47 ∉ f.name ∧ f.opens = true ∧ f.bytes.length ≤ maxfile * bsize) ∧
    metablocks + blocksOf lastOfMany ≤ fssize - nlog ∧
    ∃ S, mkfs lastOfMany = some S ∧ (wholeBlocks 1).bytes.length = 512 ∧
      ∃ ip, ilock S.img 208 = some ip ∧ ip.size = 0 ∧ readi S.img ip 0 512 = .bytes [] := by
  have hfiles : ∀ f ∈ lastOfMany, 47 ∉ f.name ∧ f.opens = true ∧ f.bytes.length ≤ maxfile * bsize := by
    intro f hf
    obtain ⟨n, hn, rfl⟩ : ∃ n ≤ 1, f = wholeBlocks n := by
      obtain hf | hf := mem_append.mp hf
      · exact ⟨0, by decide, eq_of_mem_replicate hf⟩
      · exact ⟨1, by decide, mem_singleton.mp hf⟩
    refine ⟨by simp [wholeBlocks], rfl, ?_⟩
    rw [length_wholeBlocks]
    exact Nat.mul_le_mul_right _ (hn.trans (by decide))
  have hblocks : blocksOf lastOfMany = 8 := by
    rw [blocksOf, lastOfMany, map_append, map_replicate, sum_append, sum_replicate_nat,
      length_append, length_replicate, map_singleton, sum_singleton,
      length_wholeBlocks, length_wholeBlocks]
    decide
  have hlen : lastOfMany.length + 1 < roomInodes := by
    rw [lastOfMany, length_append, length_replicate]
    decide
  refine ⟨hfiles, by rw [hblocks]; decide, ?_⟩
  obtain ⟨S, hS⟩ := mkfs_ne_none hlen hfiles (by rw [hblocks]; decide)
  obtain ⟨S₀, hfilled, hfin⟩ := finished_of_mkfs hlen hS
  have hfree := hfilled.freeblock
  rw [total_contents, hblocks] at hfree
  obtain ⟨Ns, hI, -⟩ := hfilled
  have hused : S₀.usedblocks = 37 := by
    rw [hI.used, hfree]
    decide
  have hbitmap := hfin.bitmap
  rw [hused] at hbitmap
  have htype : (dinode S.img 208).type = 65535 := type_bitmap hbitmap (by decide) (by decide)
  have hsize : (dinode S.img 208).size = 0 := by
    have heq : (dinode S.img 208).size = (bitmap 37).num 8 4 := by
      rw [Dinode.size, dinode, Bytes.num_slice (by decide), ← hbitmap]
      rfl
    rw [heq]
    decide +kernel
  refine ⟨S, hS, length_wholeBlocks 1, _, ilock_eq (by rw [htype]; decide), hsize, ?_⟩
  simp [readi, htype, hsize, readFrom]

end Xv6.Mkfs
