import Xv6.Mkfs.Image

/-!
# What `mkfs` leaves

From the zeroed image on, `main` is followed through the loop over its files: before the size
of the root is fixed, the image holds the root directory with its entries and each of the
files.

* `filled_of_addFiles`, `addFiles_ne_none` --- what the loop leaves, and when it succeeds.
-/

namespace Xv6.Mkfs

open List Option

/-! ## The root directory -/

/-- The bytes of the entries for these files, from inode `n` on. -/
def entries : ℕ → List HostFile → List UInt8
  | _, [] => []
  | n, f :: fs => dirent n f.target ++ entries (n + 1) fs

/-- The root directory. -/
def rootBytes (files : List HostFile) : List UInt8 :=
  dirent 1 [46] ++ dirent 1 [46, 46] ++ entries 2 files

theorem length_dirent (n : ℕ) (name : List UInt8) : (dirent n name).length = 16 := by
  simp only [dirent, strncpy, length_append, length_cons, length_nil, length_take,
    length_replicate, dirsiz]
  omega

theorem length_entries (n : ℕ) (fs : List HostFile) : (entries n fs).length = 16 * fs.length := by
  induction fs generalizing n with
  | nil => rfl
  | cons f fs ih =>
    rw [entries, length_append, length_dirent, ih, length_cons]
    omega

theorem entries_append (n : ℕ) (fs gs : List HostFile) :
    entries n (fs ++ gs) = entries n fs ++ entries (n + fs.length) gs := by
  induction fs generalizing n with
  | nil => rfl
  | cons f fs ih =>
    rw [cons_append, entries, entries, ih, append_assoc, length_cons,
      show n + 1 + fs.length = n + (fs.length + 1) by omega]

theorem length_rootBytes (files : List HostFile) :
    (rootBytes files).length = 16 * (files.length + 2) := by
  rw [rootBytes, length_append, length_append, length_dirent, length_dirent, length_entries]
  omega

/-- The files of the image: the root directory and those of the host. -/
def contents (files : List HostFile) : List (ℕ × List UInt8) :=
  (1, rootBytes files) :: files.map fun f => (2, f.bytes)

/-- The number of blocks that the root directory and the files take. -/
def blocksOf (files : List HostFile) : ℕ :=
  need (16 * (files.length + 2)) + (files.map fun f => need f.bytes.length).sum

theorem total_contents (files : List HostFile) : total (contents files) = blocksOf files := by
  rw [total, contents, map_cons, sum_cons, List.map_map, length_rootBytes, blocksOf]
  rfl

/-! ## The zeroed image -/

theorem foldl_wsect (n : ℕ) :
    (List.range n).foldl (fun (d : Img) i => d.wsect i Bytes.zero) ⟨0, fun _ => Bytes.zero⟩ =
      ⟨n, fun _ => Bytes.zero⟩ := by
  induction n with
  | zero => rfl
  | succ n ih =>
    rw [range_succ, foldl_append, ih]
    show Img.mk (max n (n + 1)) (Function.update (fun _ => Bytes.zero) n Bytes.zero) = _
    rw [max_eq_right (Nat.le_succ n), Function.update_eq_self_iff.mpr rfl]

theorem zeroed_eq : zeroed = (⟨fssize, fun _ => Bytes.zero⟩ : Img).wsect 1 superblock := by
  rw [zeroed, foldl_wsect]
  rfl

theorem filled_zeroed : Filled ⟨zeroed, metablocks, metablocks, 1⟩ [] := by
  refine ⟨[], ⟨?_, metablocks_le, le_rfl, fun b hb => ?_, rfl, rfl, by decide, fun hk => by simp at hk, ?_⟩, rfl,
    fun N hN => absurd hN not_mem_nil⟩
  · rw [zeroed_eq]
    exact Img.wsect_len (show 1 < fssize by decide)
  · have hne : b ≠ 1 := by
      rintro rfl
      exact absurd hb (by decide)
    show zeroed.block b = _
    rw [zeroed_eq, Img.wsect_block_of_ne hne]
  · rw [Nat.sub_self]
    exact .refl _

theorem makeRoot_spec : ∃ S, makeRoot = some S ∧ Filled S (contents []) := by
  have hdot : ∀ name, (dirent 1 name).length = 16 := length_dirent 1
  obtain ⟨S₀, hS₀, h₀⟩ := filled_zeroed.ialloc (t := 1) (by decide) (by decide)
  rw [nil_append] at h₀
  have hne₁ := h₀.iappend_ne_none (k := 0) (t := 1) (d := []) (p := dirent 1 [46]) rfl
    (by rw [hdot]; decide) (by simp only [total, set_cons_zero, map_cons, nil_append, hdot]; decide)
  obtain ⟨S₁, hS₁⟩ := ne_none_iff_exists'.mp hne₁
  have h₁ := h₀.iappend (k := 0) (t := 1) (d := []) rfl hS₁
  rw [set_cons_zero, nil_append] at h₁
  have hne₂ := h₁.iappend_ne_none (k := 0) (t := 1) (d := dirent 1 [46]) (p := dirent 1 [46, 46]) rfl
    (by rw [hdot, hdot]; decide)
    (by simp only [total, set_cons_zero, map_cons, length_append, hdot]; decide)
  obtain ⟨S₂, hS₂⟩ := ne_none_iff_exists'.mp hne₂
  have h₂ := h₁.iappend (k := 0) (t := 1) (d := dirent 1 [46]) rfl hS₂
  refine ⟨S₂, ?_, ?_⟩
  · unfold makeRoot
    rw [hS₀]
    simp only [length_nil, zero_add, rootino, ne_eq, not_true_eq_false, if_false]
    rw [hS₁]
    exact hS₂
  · rw [contents, rootBytes, entries, append_nil]
    exact h₂

/-! ## The loop over the files -/

variable {files : List HostFile}

section Files

variable {S S' : State} {done : List HostFile} {f : HostFile}

theorem contents_append (done : List HostFile) (f : HostFile) :
    contents (done ++ [f]) =
      (((contents done ++ [(2, [])]).set 0 (1, rootBytes done ++ dirent (done.length + 2) f.target)).set
        (done.length + 1) (2, [] ++ f.bytes)) := by
  rw [contents, contents, rootBytes, rootBytes, entries_append]
  simp [entries, add_comm]

theorem addFile_spec (h : Filled S (contents done)) (hroom : done.length + 2 < roomInodes)
    (hS : addFile S f = some S') : Filled S' (contents (done ++ [f])) := by
  rw [addFile] at hS
  split_ifs at hS
  obtain ⟨S₁, hS₁, h₁⟩ := h.ialloc (t := 2) (by decide) (by simpa [contents] using hroom)
  rw [hS₁] at hS
  have hlen : (contents done).length + 1 = done.length + 2 := by simp [contents]
  rw [hlen] at hS
  cases hroot : iappend S₁ rootino (dirent (done.length + 2) f.target) with
  | none => simp [hroot] at hS
  | some S₂ =>
    simp only [hroot] at hS
    have h₂ := h₁.iappend (k := 0) (d := rootBytes done) (t := 1) rfl hroot
    have h₃ := h₂.iappendAll (k := done.length + 1) (t := 2) (d := []) (by simp [contents]) hS
    rw [contents_append]
    exact h₃

theorem addFile_ne_none (h : Filled S (contents done)) (hroom : done.length + 2 < roomInodes)
    (hname : 47 ∉ f.name) (hopens : f.opens = true) (hlen : f.bytes.length ≤ maxfile * bsize)
    (hdir : 16 * (done.length + 3) ≤ maxfile * bsize)
    (hfit : metablocks + blocksOf (done ++ [f]) ≤ fssize) : addFile S f ≠ none := by
  rw [← total_contents, contents_append] at hfit
  obtain ⟨S₁, hS₁, h₁⟩ := h.ialloc (t := 2) (by decide) (by simpa [contents] using hroom)
  have hk : (contents done ++ [(2, [])])[0]? = some (1, rootBytes done) := rfl
  have hk' : ((contents done ++ [(2, [])]).set 0
      (1, rootBytes done ++ dirent (done.length + 2) f.target))[done.length + 1]? = some (2, []) := by
    simp [contents]
  have htotal := total_set ([] ++ f.bytes) hk'
  have hneed : need ([] : List UInt8).length = 0 := by decide
  have hne := h₁.iappend_ne_none (p := dirent (done.length + 2) f.target) hk
    (by rw [length_rootBytes, length_dirent]; omega) (by omega)
  obtain ⟨S₂, hS₂⟩ := ne_none_iff_exists'.mp hne
  have h₂ := h₁.iappend hk hS₂
  have hall : iappendAll (done.length + 1 + 1) S₂ f.chunks ≠ none :=
    h₂.iappendAll_ne_none hk' (by rw [length_nil, zero_add]; exact hlen) hfit
  have hcount : (contents done).length + 1 = done.length + 2 := by simp [contents]
  rw [addFile, if_neg hname, if_neg (by simp [hopens]), hS₁]
  simp only [hcount, rootino, zero_add] at hS₂ ⊢
  simp only [hS₂]
  exact hall

theorem filled_of_addFiles (h : Filled S (contents done))
    (hroom : done.length + files.length + 1 < roomInodes) (hS : addFiles S files = some S') :
    Filled S' (contents (done ++ files)) := by
  induction files generalizing S done with
  | nil =>
    cases hS
    rwa [append_nil]
  | cons f fs ih =>
    rw [length_cons] at hroom
    rw [addFiles] at hS
    cases hf : addFile S f with
    | none => simp [hf] at hS
    | some S₁ =>
      rw [hf] at hS
      have := ih (addFile_spec h (by omega) hf) (by simp; omega) hS
      rwa [append_assoc, singleton_append] at this

theorem blocksOf_append_le (done fs : List HostFile) : blocksOf done ≤ blocksOf (done ++ fs) := by
  rw [blocksOf, blocksOf, map_append, sum_append, length_append]
  have := need_mono (show 16 * (done.length + 2) ≤ 16 * (done.length + fs.length + 2) by omega)
  omega

theorem addFiles_ne_none (h : Filled S (contents done))
    (hroom : done.length + files.length + 1 < roomInodes)
    (hnames : ∀ f ∈ files, 47 ∉ f.name ∧ f.opens = true ∧ f.bytes.length ≤ maxfile * bsize)
    (hdir : 16 * (done.length + files.length + 2) ≤ maxfile * bsize)
    (hfit : metablocks + blocksOf (done ++ files) ≤ fssize) : addFiles S files ≠ none := by
  induction files generalizing S done with
  | nil => simp [addFiles]
  | cons f fs ih =>
    rw [length_cons] at hroom hdir
    rw [append_cons] at hfit
    obtain ⟨hname, hopens, hlen⟩ := hnames f mem_cons_self
    have hle := blocksOf_append_le (done ++ [f]) fs
    have hne := addFile_ne_none h (by omega) hname hopens hlen (by omega) (by omega)
    obtain ⟨S₁, hS₁⟩ := ne_none_iff_exists'.mp hne
    rw [addFiles, hS₁]
    refine ih (addFile_spec h (by omega) hS₁) (by simp; omega)
      (fun g hg => hnames g (mem_cons_of_mem f hg)) ?_ hfit
    rw [length_append, length_singleton]
    omega

end Files

/-! ## The last two steps -/

/-- The block of the bitmap. -/
def bmapblock : ℕ := ninodes / ipb + 3

/-- The inode of the root directory, with its size rounded up. -/
def rounded (d : Img) : Dinode :=
  (dinode d rootino).setSize (((dinode d rootino).size / bsize + 1) * bsize)

/-- The image `S`, after the last two steps, of what was `S₀`. -/
structure Finished (S₀ S : State) : Prop where
  len : S.img.len = fssize
  freeinode : S.freeinode = S₀.freeinode
  bitmap : S.img.block bmapblock = bitmap S₀.usedblocks
  data : ∀ b, metablocks ≤ b → S.img.block b = S₀.img.block b
  inode : ∀ i, i ≠ rootino → i2b i < bmapblock → dinode S.img i = dinode S₀.img i
  root : dinode S.img rootino = rounded S₀.img

theorem fixRoot_eq {S : State} (hlen : S.img.len = fssize) :
    fixRoot S = some { S with img := setDinode S.img rootino (rounded S.img) } := by
  have hblock : i2b rootino < S.img.len := by
    rw [hlen]
    decide
  rw [fixRoot, rinode_of_lt hblock]
  dsimp only
  rw [winode_of_lt hblock]
  rfl

theorem dinode_wsect_of_ne {d : Img} {i sec : ℕ} {buf : Block} (h : i2b i ≠ sec) :
    dinode (d.wsect sec buf) i = dinode d i := by
  rw [dinode, dinode, Img.wsect_block_of_ne h]

theorem finished_of_balloc {S₀ S₁ S : State} (hlen : S₀.img.len = fssize) (hroot : fixRoot S₀ = some S₁)
    (hS : balloc S₁ = some S) : Finished S₀ S := by
  have hblock : i2b rootino < S₀.img.len := by
    rw [hlen]
    decide
  rw [fixRoot_eq hlen] at hroot
  cases hroot
  rw [balloc] at hS
  split_ifs at hS
  cases hS
  have hl : (setDinode S₀.img rootino (rounded S₀.img)).len = S₀.img.len := setDinode_len hblock
  refine ⟨?_, rfl, Img.wsect_block_self, fun b hb => ?_, fun i hi hlt => ?_, ?_⟩
  · refine (Img.wsect_len ?_).trans (hl.trans hlen)
    rw [hl, hlen]
    decide
  · have hmeta : bmapblock < metablocks := by decide
    have hmeta' : i2b rootino < bmapblock := by decide
    exact (Img.wsect_block_of_ne (by unfold bmapblock at *; omega)).trans (setDinode_block (by omega))
  · exact (dinode_wsect_of_ne hlt.ne).trans (dinode_setDinode_of_ne hi)
  · exact (dinode_wsect_of_ne (show i2b rootino ≠ bmapblock by decide)).trans dinode_setDinode_self

theorem mkfs_eq (files : List HostFile) :
    mkfs files = (makeRoot.bind fun S => addFiles S files).bind fun S => (fixRoot S).bind balloc := by
  unfold mkfs
  generalize makeRoot = r
  cases r with
  | none => rfl
  | some S =>
    cases ha : addFiles S files with
    | none => simp [ha]
    | some S' => cases hf : fixRoot S' <;> simp [ha, hf]

/-- **What `mkfs` leaves**, as long as the inodes stay below the data blocks. -/
theorem finished_of_mkfs {S : State} (hroom : files.length + 1 < roomInodes)
    (hS : mkfs files = some S) : ∃ S₀, Filled S₀ (contents files) ∧ Finished S₀ S := by
  obtain ⟨R, hR, hfilled⟩ := makeRoot_spec
  rw [mkfs_eq, hR, bind_some, bind_eq_some_iff] at hS
  obtain ⟨S₀, hS₀, hS⟩ := hS
  obtain ⟨S₁, hS₁, hS⟩ := bind_eq_some_iff.mp hS
  have h₀ := filled_of_addFiles hfilled (by rw [length_nil]; omega) hS₀
  refine ⟨S₀, h₀, finished_of_balloc ?_ hS₁ hS⟩
  obtain ⟨Ns, hI, -⟩ := h₀
  exact hI.len

theorem mkfs_ne_none (hroom : files.length + 1 < roomInodes)
    (hnames : ∀ f ∈ files, 47 ∉ f.name ∧ f.opens = true ∧ f.bytes.length ≤ maxfile * bsize)
    (hfit : metablocks + blocksOf files ≤ fssize) : ∃ S, mkfs files = some S := by
  obtain ⟨R, hR, hfilled⟩ := makeRoot_spec
  have hdir : 16 * (files.length + 2) ≤ maxfile * bsize := by
    unfold roomInodes at hroom
    have : (metablocks - 2) * ipb = 216 := by decide
    have : maxfile * bsize = 71680 := by decide
    omega
  have hne := addFiles_ne_none hfilled (by rw [length_nil]; omega) hnames
    (by rw [length_nil]; omega) hfit
  obtain ⟨S₀, hS₀⟩ := ne_none_iff_exists'.mp hne
  have h₀ := filled_of_addFiles hfilled (by rw [length_nil]; omega) hS₀
  rw [nil_append] at h₀
  obtain ⟨Ns, hI, -⟩ := h₀
  have hused : ¬ bpb ≤ S₀.usedblocks := by
    have h₁ := hI.used
    have h₂ := hI.le
    have : fssize < bpb := by decide
    omega
  rw [mkfs_eq, hR, bind_some, hS₀, bind_some, fixRoot_eq hI.len, bind_some, balloc]
  exact ⟨_, if_neg hused⟩

/-! ## Counters -/

/-- `n` inode numbers have been used, and no block has been given back. -/
def Counts (S S' : State) (n : ℕ) : Prop :=
  S'.freeinode = S.freeinode + n ∧ S.usedblocks ≤ S'.usedblocks

theorem Counts.trans {S S' S'' : State} {n m : ℕ} (h : Counts S S' n) (h' : Counts S' S'' m) :
    Counts S S'' (n + m) :=
  ⟨by rw [h'.1, h.1, add_assoc], h.2.trans h'.2⟩

section Counters

variable {S S' : State} {din din' : Dinode} {p : List UInt8}

theorem counts_blockOf {fbn x : ℕ} (h : blockOf S din fbn = some (x, S', din')) : Counts S S' 0 := by
  have hind : Counts S (indirectOf S din).1 0 := by
    rw [indirectOf]
    split_ifs
    · exact ⟨rfl, Nat.le_succ _⟩
    · exact ⟨rfl, le_rfl⟩
  rw [blockOf] at h
  split_ifs at h
  · cases h
    exact ⟨rfl, Nat.le_succ _⟩
  · cases h
    exact ⟨rfl, le_rfl⟩
  · dsimp only at h
    split at h
    · cases h
    · split_ifs at h
      · cases h
        exact ⟨hind.1, hind.2.trans (Nat.le_succ _)⟩
      · cases h
        exact hind

theorem counts_putPiece {fbn o : ℕ} (h : putPiece S din fbn o p = some (S', din')) :
    Counts S S' 0 := by
  rw [putPiece] at h
  cases hb : blockOf S din fbn with
  | none => simp [hb] at h
  | some r =>
    obtain ⟨x, S₁, din₁⟩ := r
    rw [hb] at h
    dsimp only at h
    split at h
    · cases h
    · cases h
      have hcount := counts_blockOf hb
      exact hcount

theorem counts_iappendFrom {off off' : ℕ} (h : iappendFrom S din off p = some (S', din', off')) :
    Counts S S' 0 := by
  induction hn : p.length using Nat.strong_induction_on generalizing S din off p with
  | _ n ih =>
    rw [iappendFrom] at h
    split_ifs at h with hp
    · cases h
      exact ⟨rfl, le_rfl⟩
    · dsimp only at h
      split_ifs at h
      have hpos := (pieceLen_spec off hp).1
      split at h
      · cases h
      · rename_i S₁ din₁ hput
        have hlen := length_pos_iff.mpr hp
        refine (counts_putPiece hput).trans (ih _ ?_ h rfl)
        rw [length_drop]
        unfold pieceLen at hpos
        omega

theorem counts_iappend {inum : ℕ} (h : iappend S inum p = some S') : Counts S S' 0 := by
  rw [iappend] at h
  split at h
  · cases h
  · split at h
    · cases h
    · rename_i S₁ din₁ off hloop
      obtain ⟨d, -, rfl⟩ := map_eq_some_iff.mp h
      have hcount := counts_iappendFrom hloop
      exact hcount

theorem counts_iappendAll {inum : ℕ} {ps : List (List UInt8)} (h : iappendAll inum S ps = some S') :
    Counts S S' 0 := by
  induction ps generalizing S with
  | nil =>
    cases h
    exact ⟨rfl, le_rfl⟩
  | cons p ps ih =>
    rw [iappendAll] at h
    cases hp : iappend S inum p with
    | none => simp [hp] at h
    | some S₁ =>
      rw [hp] at h
      exact (counts_iappend hp).trans (ih h)

theorem counts_addFile {f : HostFile} (h : addFile S f = some S') : Counts S S' 1 := by
  rw [addFile] at h
  split_ifs at h
  cases ha : ialloc S 2 with
  | none => simp [ha] at h
  | some r =>
    obtain ⟨inum, S₁⟩ := r
    rw [ha] at h
    dsimp only at h
    rw [ialloc] at ha
    obtain ⟨d, -, heq⟩ := map_eq_some_iff.mp ha
    cases heq
    cases hroot : iappend { S with img := d, freeinode := S.freeinode + 1 } rootino
        (dirent S.freeinode f.target) with
    | none => simp [hroot] at h
    | some S₂ =>
      rw [hroot] at h
      have hcount := (counts_iappend hroot).trans (counts_iappendAll h)
      exact hcount

theorem counts_addFiles (h : addFiles S files = some S') : Counts S S' files.length := by
  induction files generalizing S with
  | nil =>
    cases h
    exact ⟨rfl, le_rfl⟩
  | cons f fs ih =>
    rw [addFiles] at h
    cases hf : addFile S f with
    | none => simp [hf] at h
    | some S₁ =>
      rw [hf] at h
      rw [length_cons, add_comm]
      exact (counts_addFile hf).trans (ih h)

theorem counts_mkfs (h : mkfs files = some S) :
    S.freeinode = files.length + 2 ∧ metablocks ≤ S.usedblocks ∧ S.usedblocks < bpb ∧
      S.img.block bmapblock = bitmap S.usedblocks := by
  obtain ⟨R, hR, Ns, hI, hmap, -⟩ := makeRoot_spec
  rw [mkfs_eq, hR, bind_some, bind_eq_some_iff] at h
  obtain ⟨S₀, hS₀, h⟩ := h
  obtain ⟨S₁, hS₁, h⟩ := bind_eq_some_iff.mp h
  have hone : R.freeinode = 2 := by
    rw [hI.freeinode, ← length_map (f := fun N : Node => (N.type, N.data)), hmap]
    rfl
  obtain ⟨hinode, hblocks⟩ := counts_addFiles hS₀
  have hused := hI.used
  have hge := hI.ge
  have hfix : S₁.freeinode = S₀.freeinode ∧ S₁.usedblocks = S₀.usedblocks := by
    rw [fixRoot] at hS₁
    split at hS₁
    · cases hS₁
    · obtain ⟨d, -, rfl⟩ := map_eq_some_iff.mp hS₁
      exact ⟨rfl, rfl⟩
  rw [balloc] at h
  split_ifs at h with hlt
  cases h
  refine ⟨?_, ?_, not_le.mp hlt, Img.wsect_block_self⟩
  · show S₁.freeinode = _
    omega
  · show metablocks ≤ S₁.usedblocks
    omega

end Counters

end Xv6.Mkfs
