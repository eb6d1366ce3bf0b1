import Xv6.Vm.Clean

/-!
# The image of a well-formed file

A file with a valid header whose segments are aligned, in increasing order, on pages of their own,
and inside the file, is loaded byte for byte.

* `loadFrom_file` --- `loaduvm` copies a segment, page by page.
* `Loading.userByte_filled` --- `allocuvm` keeps what is there, and adds zeroes.
* `loadSegment_file`, `loadSegments_file` --- the loop over the program headers keeps `Holds`.

There is one catch: `allocuvm` returns the new size, and `exec` takes `0` for a failure, so that a
file with an empty segment at address `0` cannot be loaded (`exec_faithful_iff`).
-/

namespace Xv6.Vm

open List

/-! ## Files -/

/-- The program header at an offset of the file. -/
def proghdrAt (data : List UInt8) (off : ℕ) : Proghdr :=
  (Bytes.zero : Proghdr).copy 0 ((data.drop off).take 32)

/-- The program headers of the file, `n` of them from an offset on. -/
def fileHeaders (data : List UInt8) : ℕ → ℕ → List Proghdr
  | 0, _ => []
  | n + 1, off => proghdrAt data off :: fileHeaders data n (off + 32)

/-- Those of them that are to be loaded. -/
def loadable (phs : List Proghdr) : List Proghdr := phs.filter fun ph => ph.type = elfProgLoad

/-- The end of a segment. -/
def segEnd (ph : Proghdr) : ℕ := Proghdr.vaddr ph + Proghdr.memsz ph

/-- The end of the last segment. -/
def lastEnd (sz : ℕ) (phs : List Proghdr) : ℕ := phs.foldl (fun _ ph => segEnd ph) sz

/-- A segment that can be loaded from the file. -/
structure SegOk (data : List UInt8) (ph : Proghdr) : Prop where
  aligned : ph.vaddr % pgsize = 0
  filesz_le : ph.filesz ≤ ph.memsz
  end_lt : segEnd ph < kernbase - 2 * pgsize
  inside : ph.off + ph.filesz ≤ data.length

/-- The header of the file. -/
def fileElf (data : List UInt8) : Elfhdr := (Bytes.zero : Elfhdr).copy 0 (data.take 52)

/-- The segments of the file. -/
def fileSegments (data : List UInt8) : List Proghdr :=
  loadable (fileHeaders data (fileElf data).phnum (fileElf data).phoff)

/-- A file that can be loaded when there are `F` free pages. -/
structure GoodFile (data : List UInt8) (F : ℕ) : Prop where
  size : data.length < 2 ^ 32
  header : 52 ≤ data.length
  magic : (fileElf data).magic = elfMagic
  headers : (fileElf data).phoff + 32 * (fileElf data).phnum ≤ data.length
  segments : ∀ ph ∈ fileSegments data, SegOk data ph
  sorted : (fileSegments data).Pairwise fun p q => pgroundup (segEnd p) ≤ Proghdr.vaddr q
  room : 65 + usedBy (pagesBetween 0 (lastEnd 0 (fileSegments data)) + 2) ≤ F

section File

variable {data : List UInt8} {off n k : ℕ}

theorem ofFile_read (h : off + n ≤ data.length) (hlt : data.length < 2 ^ 32) :
    (Reader.ofFile data).read k off n = some ((data.drop off).take n) :=
  if_neg (by omega)

theorem length_file_read (h : off + n ≤ data.length) : ((data.drop off).take n).length = n := by
  rw [length_take, length_drop]
  omega

theorem ofFile_proghdr (h : off + 32 ≤ data.length) (hlt : data.length < 2 ^ 32) :
    readProghdr (.ofFile data) k off = some (proghdrAt data off) := by
  rw [readProghdr, ofFile_read h hlt]
  exact if_pos (length_file_read h)

theorem GoodFile.taken {F : ℕ} (h : GoodFile data F) (elf₀ : Elfhdr) :
    HeaderTaken (.ofFile data) elf₀ ∧ headerOf (.ofFile data) elf₀ = fileElf data := by
  have hread : (Reader.ofFile data).read 0 0 52 = some (data.take 52) :=
    ofFile_read (show 0 + 52 ≤ data.length by have := h.header; omega) h.size
  have hlen : (data.take 52).length = 52 := by
    rw [length_take]
    have := h.header
    omega
  have heq : headerOf (.ofFile data) elf₀ = fileElf data := by
    rw [Mem.headerOf_read hread hlen elf₀ Bytes.zero, headerOf, hread]
    rfl
  refine ⟨⟨?_, ?_⟩, heq⟩
  · rw [hread]
    exact hlen.ge
  · rw [heq]
    exact h.magic

end File

namespace Mem

variable {L : Layout} {M₀ M M' : Mem} {d k n i f g v a new : ℕ} {s s' : Room} {lost : Multiset ℕ}
  {data : List UInt8} {addr off filesz : ℕ}

/-! ## One segment -/

theorem chunk_add_le (filesz i : ℕ) : i + chunk filesz i ≤ filesz ∨ filesz ≤ i := by
  rw [chunk]
  split <;> omega

theorem file_byte (haddr : addr % pgsize = 0) (hi : i % pgsize = 0) (hpos : i < filesz) {x : UInt8} :
    (if addr + (i + pgsize) ≤ a ∧ a < addr + filesz then data[off + (a - addr)]?.getD 0
      else if a / pgsize = (addr + i) / pgsize ∧ 0 ≤ a % pgsize ∧ a % pgsize < 0 + chunk filesz i then
        ((data.drop (off + i)).take (chunk filesz i))[a % pgsize - 0]?.getD 0 else x) =
      if addr + i ≤ a ∧ a < addr + filesz then data[off + (a - addr)]?.getD 0 else x := by
  have hchunk : chunk filesz i = min (filesz - i) pgsize := by
    rw [chunk]
    split <;> omega
  by_cases hlater : addr + (i + pgsize) ≤ a ∧ a < addr + filesz
  · rw [if_pos hlater, if_pos (by omega)]
  rw [if_neg hlater]
  by_cases hhere : a / pgsize = (addr + i) / pgsize ∧ 0 ≤ a % pgsize ∧ a % pgsize < 0 + chunk filesz i
  · have hidx : off + i + a % pgsize = off + (a - addr) ∧ addr + i ≤ a ∧ a < addr + filesz := by
      rw [hchunk] at hhere
      simp only [pgsize] at *
      omega
    rw [if_pos hhere, if_pos hidx.2, Nat.sub_zero, getElem?_take_of_lt (by omega),
      getElem?_drop, hidx.1]
  · rw [if_neg hhere, if_neg]
    rw [hchunk] at hhere
    simp only [pgsize] at *
    omega

theorem loadFrom_file (haddr : addr % pgsize = 0) (hdata : data.length < 2 ^ 32)
    (hin : off + filesz ≤ data.length) (h : Loading L d M₀ userPerm M s lost)
    (hfit : addr + filesz ≤ s.mapped * pgsize) (hi : i % pgsize = 0)
    (hn : n = pagesBetween i filesz) (hlt : i < 2 ^ 32) :
    ∃ k' stores M', loadFrom (.ofFile data) d addr off filesz n i k M = .ok (true, k', stores, M') ∧
      Loading L d M₀ userPerm M' s lost ∧
      ∀ a, a / pgsize < s.mapped → M'.userByte d a =
        if addr + i ≤ a ∧ a < addr + filesz then data[off + (a - addr)]?.getD 0 else M.userByte d a := by
  have hle := h.le
  induction n generalizing i k M with
  | zero =>
    have hend : filesz ≤ i := by
      simp only [pagesBetween, pgsize] at hn
      omega
    refine ⟨k, [], M, if_pos hlt, h, fun a _ => ?_⟩
    rw [if_neg (by omega)]
  | succ n ih =>
    have hpos : i < filesz := by
      simp only [pagesBetween, pgsize] at hn
      omega
    have hva : (addr + i) % 2 ^ 32 = addr + i := by
      simp only [userPages, kernbase, pgsize] at *
      omega
    have hv : (addr + i) / pgsize < s.mapped := by
      simp only [pgsize] at *
      omega
    have hchunk : i + chunk filesz i ≤ filesz := by
      rcases chunk_add_le filesz i with h | h <;> omega
    have hoff : (off + i) % 2 ^ 32 = off + i := Nat.mod_eq_of_lt (by omega)
    have hread : (Reader.ofFile data).read k ((off + i) % 2 ^ 32) (chunk filesz i) =
        some ((data.drop (off + i)).take (chunk filesz i)) := by
      rw [hoff]
      exact ofFile_read (by omega) hdata
    have hlen : ((data.drop (off + i)).take (chunk filesz i)).length = chunk filesz i :=
      length_file_read (by omega)
    obtain ⟨t, ht⟩ := exists_table (h.present hv)
    rw [loadFrom_read haddr hi (v := (addr + i) / pgsize) (by rw [hva]) ht hread, if_pos hlen]
    obtain ⟨k', stores, M', hrun, hM', hbytes⟩ := ih (k := k + 1)
      (h.setPage hv ((M.page (pageOf (M.pte d ((addr + i) / pgsize)))).copy 0
        ((data.drop (off + i)).take (chunk filesz i))))
      (i := i + pgsize) (by simp only [pgsize] at *; omega)
      (by simp only [pagesBetween, pgsize] at *; omega)
      (by simp only [userPages, kernbase, pgsize] at *; omega)
    refine ⟨k', ⟨(addr + i) % 2 ^ 32, M.pte d ((addr + i) / pgsize),
      (data.drop (off + i)).take (chunk filesz i)⟩ :: stores, M', ?_, hM', fun a ha => ?_⟩
    · rw [write, hrun]
      rfl
    · have hwrite := h.userByte_write hv 0 ha ((data.drop (off + i)).take (chunk filesz i))
      rw [write] at hwrite
      rw [hbytes a ha, hwrite, hlen]
      exact file_byte haddr hi hpos


/-! ## The image so far -/

theorem Loading.userByte_filled {e : ℕ} (h : Loading L d M₀ userPerm M s lost) (hw : s.mapped = s.pages)
    (hfill : Filled d (fun u => s.pages ≤ u ∧ u < e) (fun _ => Bytes.zero) userPerm M M')
    (ha : a / pgsize < e) :
    M'.userByte d a = if a / pgsize < s.pages then M.userByte d a else 0 := by
  split
  · rename_i hlt
    have hm : a / pgsize < s.mapped := by omega
    obtain ⟨hf, hn⟩ := h.sound.notMem_of_mapped (h.mem_pages hm)
    rw [userByte, userByte, hfill.pte _ (userPages_lt (hm.trans_le h.le)) (by omega), hfill.page _ hf hn]
  · rename_i hge
    obtain ⟨f, -, hpte, hpage⟩ := hfill.filled (a / pgsize) ⟨by omega, ha⟩
    have hperm : userPerm (a / pgsize) < pgsize := by
      rw [userPerm]
      decide
    rw [userByte, hpte, pageOf_entry hperm, hpage, Bytes.byte_of_lt (Nat.mod_lt _ (by decide))]
    rfl

/-- Below `n` the image holds the segments `phs` of the file, and zeroes elsewhere. -/
structure Holds (data : List UInt8) (phs : List Proghdr) (M : Mem) (d n : ℕ) : Prop where
  segment : ∀ ph ∈ phs, ∀ i < Proghdr.filesz ph,
    M.userByte d (ph.vaddr + i) = data[ph.off + i]?.getD 0
  zero : ∀ a < n, (∀ ph ∈ phs, ¬ (Proghdr.vaddr ph ≤ a ∧ a < ph.vaddr + ph.filesz)) →
    M.userByte d a = 0

/-- The image holds the segments `phs`, and ends with the last of them. -/
structure Image.Holding (L : Layout) (d : ℕ) (M₀ : Mem) (data : List UInt8) (phs : List Proghdr)
    (M : Mem) (s : Room) : Prop extends Loading L d M₀ userPerm M s 0 where
  all : s.mapped = s.pages
  count : 65 + usedBy s.pages + s.free = M₀.free.length
  ends : ∀ ph ∈ phs, segEnd ph ≤ s.sz
  small : ∀ ph ∈ phs, Proghdr.filesz ph ≤ ph.memsz
  holds : Holds data phs M d (s.pages * pgsize)

section Segment

variable {phs : List Proghdr} {ph : Proghdr}

theorem segEnd_le_pages {sz : ℕ} (h : segEnd ph ≤ sz) (hi : i < ph.memsz) :
    (ph.vaddr + i) / pgsize < pagesBetween 0 sz := by
  simp only [segEnd, pagesBetween, pgsize] at *
  omega

theorem loadSegment_file (h : Image.Holding L d M₀ data phs M s) (hdata : data.length < 2 ^ 32)
    (htype : ph.type = elfProgLoad) (hok : SegOk data ph) (hne : segEnd ph ≠ 0)
    (horder : pgroundup s.sz ≤ ph.vaddr) (hroom : 65 + usedBy (pagesBetween 0 (segEnd ph)) ≤ M₀.free.length) :
    ∃ k' stores M' s', loadSegment L (.ofFile data) d ph k s.sz M = .ok (some (k', s'.sz), stores, M') ∧
      s'.sz = segEnd ph ∧ Image.Holding L d M₀ data (phs ++ [ph]) M' s' := by
  have hlt := hok.end_lt
  have hround := pgroundup_eq h.sane.le
  have hle : s.sz ≤ segEnd ph := by
    rw [hround] at horder
    simp only [segEnd, pagesBetween, pgsize] at *
    omega
  have hnew : segEnd ph < kernbase := by omega
  have hmod : (ph.vaddr + ph.memsz) % 2 ^ 32 = segEnd ph := Nat.mod_eq_of_lt (by
    change segEnd ph < 2 ^ 32
    simp only [kernbase] at hnew
    omega)
  have hcount := h.count
  have hmono : usedBy s.pages ≤ usedBy (pagesBetween 0 (segEnd ph)) := usedBy_mono (pagesBetween_mono hle)
  obtain ⟨M₁, halloc, hfill, hM₁⟩ := allocuvm_enough h.toLoading h.all hle hnew (by
    rw [Room.need]
    omega)
  obtain ⟨k', stores, M', hrun, hM', hbytes⟩ := loadFrom_file (k := k) (i := 0)
    (n := pagesBetween 0 ph.filesz) hok.aligned hdata hok.inside hM₁ (by
      have := hok.filesz_le
      change ph.vaddr + ph.filesz ≤ pagesBetween 0 (segEnd ph) * pgsize
      simp only [segEnd, pagesBetween, pgsize] at *
      omega) rfl rfl (by decide)
  refine ⟨k', stores.map fun st => (segEnd ph, st), M',
    ⟨segEnd ph, pagesBetween 0 (segEnd ph), s.free - s.need (segEnd ph)⟩, ?_, rfl, ?_⟩
  · rw [loadSegment_eq htype hok.filesz_le (by rw [hmod]; exact halloc) (Nat.pos_of_ne_zero hne), loaduvm,
      if_neg (not_not.mpr hok.aligned), hrun]
    rfl
  · have hkept : ∀ a, a / pgsize < pagesBetween 0 (segEnd ph) → M'.userByte d a =
        if ph.vaddr ≤ a ∧ a < ph.vaddr + ph.filesz then data[ph.off + (a - ph.vaddr)]?.getD 0
        else if a / pgsize < s.pages then M.userByte d a else 0 := by
      intro a ha
      rw [hbytes a ha, h.userByte_filled h.all hfill ha]
      rfl
    refine ⟨hM', rfl, ?_, ?_, ?_, ?_, ?_⟩
    · change 65 + usedBy (pagesBetween 0 (segEnd ph)) + (s.free - s.need (segEnd ph)) = _
      rw [Room.need]
      omega
    · intro q hq
      rcases mem_append.mp hq with hq | hq
      · exact (h.ends q hq).trans hle
      · rw [mem_singleton.mp hq]
    · intro q hq
      rcases mem_append.mp hq with hq | hq
      · exact h.small q hq
      · rw [mem_singleton.mp hq]
        exact hok.filesz_le
    · intro q hq i hi
      rcases mem_append.mp hq with hq | hq
      · have hmem := h.small q hq
        have hpage : (q.vaddr + i) / pgsize < s.pages := segEnd_le_pages (h.ends q hq) (by omega)
        have hpage' : s.pages ≤ pagesBetween 0 (segEnd ph) := pagesBetween_mono hle
        rw [hkept _ (by omega), if_neg, if_pos hpage, h.holds.segment q hq i hi]
        rw [hround] at horder
        change s.pages * pgsize ≤ ph.vaddr at horder
        simp only [pgsize] at horder hpage
        omega
      · obtain rfl := mem_singleton.mp hq
        have hmem := hok.filesz_le
        rw [hkept _ (segEnd_le_pages le_rfl (by omega)), if_pos (by omega), Nat.add_sub_cancel_left]
    · intro a ha hno
      rw [hkept a (Nat.div_lt_of_lt_mul (by rw [mul_comm]; exact ha)),
        if_neg (hno ph (mem_append_right _ mem_cons_self))]
      split
      · rename_i hlt
        refine h.holds.zero a ?_ fun q hq => hno q (mem_append_left _ hq)
        simp only [pgsize] at hlt ⊢
        omega
      · rfl

/-! ## The loop over the program headers -/

theorem lastEnd_cons (sz : ℕ) (phs : List Proghdr) : lastEnd sz (ph :: phs) = lastEnd (segEnd ph) phs := rfl

theorem le_lastEnd {sz : ℕ} (horder : ∀ ph ∈ phs, pgroundup sz ≤ Proghdr.vaddr ph) (hsz : sz ≤ kernbase)
    (hsorted : phs.Pairwise fun p q => pgroundup (segEnd p) ≤ Proghdr.vaddr q)
    (hlt : ∀ ph ∈ phs, segEnd ph ≤ kernbase) : sz ≤ lastEnd sz phs := by
  induction phs generalizing sz with
  | nil => exact le_rfl
  | cons ph phs ih =>
    obtain ⟨hfirst, hrest⟩ := pairwise_cons.mp hsorted
    obtain ⟨hph, hlt'⟩ := forall_mem_cons.mp hlt
    rw [lastEnd_cons]
    refine le_trans ?_ (ih hfirst hph hrest hlt')
    have := horder ph mem_cons_self
    rw [pgroundup_eq hsz] at this
    simp only [segEnd, pagesBetween, pgsize] at *
    omega

theorem loadable_of_type (h : (proghdrAt data off).type = elfProgLoad) :
    loadable (fileHeaders data (n + 1) off) =
      proghdrAt data off :: loadable (fileHeaders data n (off + 32)) := by
  rw [fileHeaders, loadable, filter_cons, if_pos (by simpa using h)]
  rfl

theorem loadable_of_not_type (h : (proghdrAt data off).type ≠ elfProgLoad) :
    loadable (fileHeaders data (n + 1) off) = loadable (fileHeaders data n (off + 32)) := by
  rw [fileHeaders, loadable, filter_cons, if_neg (by simpa using h)]
  rfl

theorem loadSegments_file (hdata : data.length < 2 ^ 32) (hin : off + 32 * n ≤ data.length)
    (h : Image.Holding L d M₀ data phs M s)
    (hok : ∀ ph ∈ loadable (fileHeaders data n off), SegOk data ph ∧ segEnd ph ≠ 0)
    (horder : ∀ ph ∈ loadable (fileHeaders data n off), pgroundup s.sz ≤ Proghdr.vaddr ph)
    (hsorted : (loadable (fileHeaders data n off)).Pairwise
      fun p q => pgroundup (segEnd p) ≤ Proghdr.vaddr q)
    (hroom : 65 + usedBy (pagesBetween 0 (lastEnd s.sz (loadable (fileHeaders data n off)))) ≤
      M₀.free.length) :
    ∃ stores M' s', loadSegments L (.ofFile data) d n off k s.sz M = .ok (some s'.sz, stores, M') ∧
      s'.sz = lastEnd s.sz (loadable (fileHeaders data n off)) ∧
      Image.Holding L d M₀ data (phs ++ loadable (fileHeaders data n off)) M' s' := by
  induction n generalizing off k s M phs with
  | zero =>
    refine ⟨[], M, s, rfl, rfl, ?_⟩
    rw [show phs ++ loadable (fileHeaders data 0 off) = phs from append_nil phs]
    exact h
  | succ n ih =>
    have hph : readProghdr (.ofFile data) k off = some (proghdrAt data off) :=
      ofFile_proghdr (by omega) hdata
    have hoff : (off + 32) % 2 ^ 32 = off + 32 := Nat.mod_eq_of_lt (by omega)
    rw [loadSegments_read hph, hoff]
    by_cases htype : (proghdrAt data off).type = elfProgLoad
    · rw [loadable_of_type htype] at hok horder hsorted hroom ⊢
      obtain ⟨⟨hfirst, hne⟩, hok'⟩ := forall_mem_cons.mp hok
      obtain ⟨hnext, hsorted'⟩ := pairwise_cons.mp hsorted
      rw [lastEnd_cons] at hroom ⊢
      have hlast := le_lastEnd hnext (by have := hfirst.end_lt; omega) hsorted' fun q hq => by
        have := (hok' q hq).1.end_lt
        omega
      obtain ⟨k', stores, M₁, s₁, hrun, hs₁, hM₁⟩ := loadSegment_file (k := k + 1) h hdata htype hfirst
        hne (horder _ mem_cons_self) (by
          have := usedBy_mono (pagesBetween_mono hlast)
          omega)
      obtain ⟨more, M', s', hrun', hs', hM'⟩ := ih (k := k') (by omega) hM₁ hok'
        (fun q hq => by rw [hs₁]; exact hnext q hq) hsorted' (by rw [hs₁]; exact hroom)
      refine ⟨stores ++ more, M', s', ?_, ?_, ?_⟩
      · rw [hrun]
        simp only [ok_bind, hrun']
        rfl
      · rw [hs', hs₁]
      · rw [append_assoc] at hM'
        exact hM'
    · rw [loadable_of_not_type htype] at hok horder hsorted hroom ⊢
      obtain ⟨more, M', s', hrun', hs', hM'⟩ := ih (k := k + 1) (by omega) h hok horder hsorted hroom
      refine ⟨[] ++ more, M', s', ?_, hs', hM'⟩
      rw [loadSegment, if_pos htype]
      simp only [ok_bind, hrun']
      rfl

/-- An empty segment at address `0` cannot be told from a failure of `allocuvm`. -/
theorem loadSegments_empty (hdata : data.length < 2 ^ 32) (hin : off + 32 * n ≤ data.length)
    (hok : ∀ ph ∈ loadable (fileHeaders data n off), SegOk data ph)
    (hsorted : (loadable (fileHeaders data n off)).Pairwise
      fun p q => pgroundup (segEnd p) ≤ Proghdr.vaddr q)
    (hempty : ∃ ph ∈ loadable (fileHeaders data n off), segEnd ph = 0) :
    loadSegments L (.ofFile data) d n off k 0 M = .ok (none, [], M) := by
  induction n generalizing off k with
  | zero =>
    obtain ⟨ph, hph, -⟩ := hempty
    exact absurd hph not_mem_nil
  | succ n ih =>
    have hph : readProghdr (.ofFile data) k off = some (proghdrAt data off) :=
      ofFile_proghdr (by omega) hdata
    have hoff : (off + 32) % 2 ^ 32 = off + 32 := Nat.mod_eq_of_lt (by omega)
    rw [loadSegments_read hph, hoff]
    by_cases htype : (proghdrAt data off).type = elfProgLoad
    · rw [loadable_of_type htype] at hok hsorted hempty
      obtain ⟨hfirst, -⟩ := forall_mem_cons.mp hok
      obtain ⟨hnext, -⟩ := pairwise_cons.mp hsorted
      have hend : segEnd (proghdrAt data off) = 0 := by
        obtain ⟨q, hq, hzero⟩ := hempty
        rcases mem_cons.mp hq with rfl | hq
        · exact hzero
        · have hle := hnext q hq
          have hlt := hfirst.end_lt
          rw [pgroundup_eq (by omega)] at hle
          simp only [segEnd, pagesBetween, pgsize] at *
          omega
      have hmod : ((proghdrAt data off).vaddr + (proghdrAt data off).memsz) % 2 ^ 32 = 0 := by
        rw [show (proghdrAt data off).vaddr + (proghdrAt data off).memsz = 0 from hend,
          Nat.zero_mod]
      have halloc : allocuvm L M d 0 0 = .ok (0, M) := rfl
      rw [loadSegment, if_neg (not_not.mpr htype), if_neg (not_lt.mpr hfirst.filesz_le), hmod, halloc]
      rfl
    · rw [loadable_of_not_type htype] at hok hsorted hempty
      rw [loadSegment, if_pos htype]
      simp only [ok_bind, ih (k := k + 1) (by omega) hok hsorted hempty]
      rfl

end Segment

/-! ## The image -/

/-- The image of a program with the segments `phs`, with the guard page and the page of the
stack. -/
structure ImageOk (data : List UInt8) (phs : List Proghdr) (M : Mem) (d sz : ℕ) : Prop where
  size : sz = pgroundup (lastEnd 0 phs) + 2 * pgsize
  aligned : sz % pgsize = 0
  present : ∀ v, v * pgsize < sz → present (M.pte d v) = true
  holds : Holds data phs M d (sz - 2 * pgsize)
  guard : ∀ v, v * pgsize < sz → (user (M.pte d v) = false ↔ v * pgsize = sz - 2 * pgsize)

/-- `exec` takes the header, and its loop over the program headers and its allocation of the stack
build the image of the file. -/
def Faithful (L : Layout) (data : List UInt8) (elf₀ : Elfhdr) (M : Mem) : Prop :=
  HeaderTaken (.ofFile data) elf₀ ∧
  ∃ d M₁ sz₀ loads M₂ sz M₃ M₄, setupkvm L M = .ok (some d, M₁) ∧
    loadSegments L (.ofFile data) d (headerOf (.ofFile data) elf₀).phnum
      (headerOf (.ofFile data) elf₀).phoff 1 0 M₁ = .ok (some sz₀, loads, M₂) ∧
    allocuvm L M₂ d (pgroundup sz₀) ((pgroundup sz₀ + 2 * pgsize) % 2 ^ 32) = .ok (sz, M₃) ∧
    sz ≠ 0 ∧ M₃.clearpteu d (sz - 2 * pgsize) = .ok M₄ ∧ ImageOk data (fileSegments data) M₄ d sz

theorem length_free_le (hn : M.free.Nodup) (hal : ∀ f ∈ M.free, L.Allocatable f) :
    M.free.length ≤ phystop / pgsize := by
  have hsub : M.free ⊆ List.range (phystop / pgsize) := fun f hf =>
    mem_range.mpr ((Nat.lt_div_iff_mul_lt (by decide)).mpr (by
      have := (hal f hf).2
      simp only [phystop, pgsize] at *
      omega))
  simpa using (hn.subperm hsub).length_le

theorem le_usedBy (m : ℕ) : m ≤ usedBy m := Nat.le_add_right m _

theorem stack_file {phs : List Proghdr} (h : Image.Holding L d M₀ data phs M s)
    (hlast : s.sz = lastEnd 0 phs) (hfree : M₀.free.length ≤ phystop / pgsize)
    (hroom : 65 + usedBy (s.pages + 2) ≤ M₀.free.length) :
    ∃ sz M' M'', allocuvm L M d (pgroundup s.sz) ((pgroundup s.sz + 2 * pgsize) % 2 ^ 32) = .ok (sz, M') ∧
      sz ≠ 0 ∧ M'.clearpteu d (sz - 2 * pgsize) = .ok M'' ∧ ImageOk data phs M'' d sz := by
  obtain ⟨hsane, hpages⟩ := h.sane.roundup
  have hround : pgroundup s.sz = s.pages * pgsize := pgroundup_eq h.sane.le
  -- memory is too small for a program that leaves no room for the stack
  have hnew : s.pages * pgsize + 2 * pgsize < kernbase := by
    have := le_usedBy (s.pages + 2)
    simp only [phystop, kernbase, pgsize] at *
    omega
  have hmod : (pgroundup s.sz + 2 * pgsize) % 2 ^ 32 = s.pages * pgsize + 2 * pgsize := by
    rw [hround]
    refine Nat.mod_eq_of_lt (hnew.trans (by decide))
  have hend : pagesBetween 0 (s.pages * pgsize + 2 * pgsize) = s.pages + 2 := by
    simp only [pagesBetween, pgsize]
    omega
  have hcount := h.count
  obtain ⟨M', halloc, hfill, hM'⟩ := allocuvm_enough h.toLoading.roundup (h.all.trans hpages.symm)
    (show pgroundup s.sz ≤ s.pages * pgsize + 2 * pgsize by omega) hnew (by
      rw [Room.need, hpages, hend]
      change _ ≤ s.free
      omega)
  have hst : Room.Stack ⟨s.pages * pgsize + 2 * pgsize, pagesBetween 0 (s.pages * pgsize + 2 * pgsize),
      s.roundup.free - s.roundup.need (s.pages * pgsize + 2 * pgsize)⟩ := by
    refine ⟨hM'.sane, ?_, ?_⟩
    · change 2 ≤ pagesBetween 0 (s.pages * pgsize + 2 * pgsize)
      omega
    · change _ = pagesBetween 0 (s.pages * pgsize + 2 * pgsize) * pgsize
      rw [hend, add_mul]
  obtain ⟨M'', hclear, hM'', hbytes⟩ := clearpteu_ok hM' hst
  have hmapped : ∀ v, v * pgsize < s.pages * pgsize + 2 * pgsize → v < s.pages + 2 := fun v hv => by
    simp only [pgsize] at hv
    omega
  refine ⟨s.pages * pgsize + 2 * pgsize, M', M'', ?_, ?_, hclear, ?_⟩
  · rw [hmod]
    exact halloc
  · simp only [pgsize]
    omega
  refine ⟨?_, ?_, ?_, ⟨?_, ?_⟩, ?_⟩
  · rw [← hlast, hround]
  · simp only [pgsize]
    omega
  · intro v hv
    refine hM''.present ?_
    change v < pagesBetween 0 _
    rw [hend]
    exact hmapped v hv
  · intro ph hph i hi
    have hpage : (ph.vaddr + i) / pgsize < s.pages :=
      segEnd_le_pages (h.ends ph hph) (hi.trans_le (h.small ph hph))
    rw [hbytes _ (by change _ < pagesBetween 0 _; omega),
      h.toLoading.roundup.userByte_filled (h.all.trans hpages.symm) hfill (by omega), hpages, if_pos hpage,
      h.holds.segment ph hph i hi]
  · intro a ha hno
    have hlt : a < s.pages * pgsize := by omega
    have hpage : a / pgsize < s.pages := Nat.div_lt_of_lt_mul (by rw [mul_comm]; exact hlt)
    rw [hbytes _ (by change _ < pagesBetween 0 _; omega),
      h.toLoading.roundup.userByte_filled (h.all.trans hpages.symm) hfill (by omega), hpages, if_pos hpage,
      h.holds.zero a hlt hno]
  · intro v hv
    have hv' := hmapped v hv
    have hperm : user (M''.pte d v) = (stackPerm (s.pages + 2) v).testBit 2 := by
      rw [hM''.user (by change v < pagesBetween 0 _; omega)]
      change (stackPerm (pagesBetween 0 _) v).testBit 2 = _
      rw [hend]
    rw [hperm, stackPerm]
    split
    · refine iff_of_true (by decide) ?_
      simp only [pgsize] at *
      omega
    · refine iff_of_false (by decide) ?_
      simp only [pgsize] at *
      omega

/-- **A well-formed file is loaded byte for byte if and only if it has no empty segment at address
`0`.** -/
theorem exec_faithful_iff (L : Layout) (data : List UInt8) (elf₀ : Elfhdr) (M : Mem)
    (hn : M.free.Nodup) (hal : ∀ f ∈ M.free, L.Allocatable f) (hfile : GoodFile data M.free.length) :
    Faithful L data elf₀ M ↔
      ∀ ph ∈ fileSegments data, ¬ (Proghdr.vaddr ph = 0 ∧ Proghdr.memsz ph = 0) := by
  obtain ⟨htaken, hheader⟩ := hfile.taken elf₀
  have hempty : ∀ ph : Proghdr, segEnd ph = 0 ↔ ph.vaddr = 0 ∧ ph.memsz = 0 := fun ph => by
    rw [segEnd]
    omega
  rw [Faithful, hheader]
  constructor
  · rintro ⟨-, d, M₁, sz₀, loads, M₂, -, -, -, -, hload, -⟩ ph hph hzero
    rw [loadSegments_empty hfile.size hfile.headers hfile.segments hfile.sorted
      ⟨ph, hph, (hempty ph).mpr hzero⟩] at hload
    cases hload
  · intro hne
    have hroom := hfile.room
    obtain ⟨d, M₁, hsetup, hnew, hfree⟩ := setupkvm_ok (L := L) hn hal (by omega)
    have hstart : Image.Holding L d M data [] M₁ ⟨0, 0, M₁.free.length⟩ := by
      have hpages : Room.pages ⟨0, 0, M₁.free.length⟩ = 0 := show pagesBetween 0 0 = 0 from rfl
      refine ⟨hnew.loading hn hal, hpages.symm, ?_, forall_mem_nil _, forall_mem_nil _,
        forall_mem_nil _, fun a ha => ?_⟩
      · rw [hpages, show usedBy 0 = 0 from rfl]
        change 65 + 0 + M₁.free.length = M.free.length
        omega
      · rw [hpages, zero_mul] at ha
        exact absurd ha (Nat.not_lt_zero a)
    have hmono := usedBy_mono (Nat.le_add_right (pagesBetween 0 (lastEnd 0 (fileSegments data))) 2)
    obtain ⟨loads, M₂, s, hload, hlast, hM₂⟩ := loadSegments_file (k := 1) hfile.size hfile.headers hstart
      (fun ph hph => ⟨hfile.segments ph hph, fun h => hne ph hph ((hempty ph).mp h)⟩)
      (fun ph _ => show pgroundup 0 ≤ ph.vaddr from Nat.zero_le _) hfile.sorted (by
        change 65 + usedBy (pagesBetween 0 (lastEnd 0 (fileSegments data))) ≤ _
        omega)
    change s.sz = lastEnd 0 (fileSegments data) at hlast
    rw [nil_append] at hM₂
    obtain ⟨sz, M₃, M₄, halloc, hsz, hclear, himage⟩ := stack_file hM₂ hlast (length_free_le hn hal) (by
      rw [Room.pages, hlast]
      exact hroom)
    exact ⟨htaken, d, M₁, s.sz, loads, M₂, sz, M₃, M₄, hsetup, hload, halloc, hsz, hclear, himage⟩


/-- A file with an empty segment at address `0` can be loaded for all the conditions say, but
`exec` refuses it. -/
theorem exec_refuses_empty :
    (execMem.free.Nodup ∧ (∀ f ∈ execMem.free, someLayout.Allocatable f) ∧
      GoodFile (elfFile 0 0 0) execMem.free.length) ∧
    ¬ Faithful someLayout (elfFile 0 0 0) Bytes.zero execMem := by
  have hseg : fileSegments (elfFile 0 0 0) = [fileProghdr 0 0 0] := by decide +kernel
  have hok : ∀ ph ∈ fileSegments (elfFile 0 0 0), SegOk (elfFile 0 0 0) ph := by
    rw [hseg]
    exact forall_mem_singleton.mpr
      ⟨by decide +kernel, by decide +kernel, by decide +kernel, by decide +kernel⟩
  have hfile : GoodFile (elfFile 0 0 0) execMem.free.length :=
    ⟨by decide +kernel, by decide +kernel, by decide +kernel, by decide +kernel, hok,
      by rw [hseg]; exact pairwise_singleton _ _, by decide +kernel⟩
  refine ⟨⟨execMem_sound.free_nodup, fun f hf => execMem_sound.takes_free hf, hfile⟩, ?_⟩
  rintro ⟨-, d, M₁, sz₀, loads, M₂, -, -, -, -, hload, -⟩
  rw [(hfile.taken Bytes.zero).2, loadSegments_empty hfile.size hfile.headers hok hfile.sorted
    ⟨fileProghdr 0 0 0, by
      change _ ∈ fileSegments (elfFile 0 0 0)
      rw [hseg]
      exact mem_cons_self, by decide +kernel⟩] at hload
  cases hload

/-- A segment of four bytes at address `0`. -/
theorem exec_faithful_small :
    Faithful someLayout (elfFile 0 4 4) Bytes.zero execMem := by
  have hseg : fileSegments (elfFile 0 4 4) = [fileProghdr 0 4 4] := by decide +kernel
  refine (exec_faithful_iff _ _ _ _ execMem_sound.free_nodup (fun f hf => execMem_sound.takes_free hf)
    ⟨by decide +kernel, by decide +kernel, by decide +kernel, by decide +kernel, ?_, ?_,
      by decide +kernel⟩).mpr ?_
  · rw [hseg]
    exact forall_mem_singleton.mpr
      ⟨by decide +kernel, by decide +kernel, by decide +kernel, by decide +kernel⟩
  · rw [hseg]
    exact pairwise_singleton _ _
  · rw [hseg]
    exact forall_mem_singleton.mpr (by decide +kernel)

end Mem
end Xv6.Vm
