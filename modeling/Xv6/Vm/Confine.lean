import Xv6.Vm.Outcome

/-!
# What an executable can make `exec` write

The program headers are read from a file that anybody may have written, and `exec` checks little of
them.  It lets pass

* a `vaddr` that is not a multiple of `PGSIZE`, for which `loaduvm` panics;
* a `vaddr + memsz` that wraps around, so that `allocuvm` does not reach `vaddr`.  `loaduvm` then
  panics, or stores where it finds a page table: to page `0` of the physical memory if the entry is
  empty, and to the kernel if `vaddr` is above `KERNBASE`.

`exec_confines_iff` says that there are no other ways: `exec` returns, and stores only to the new
image, if and only if what comes to be loaded fits.  `exec_writes_kernel` is an executable that
writes to the text of the kernel.
-/

namespace Xv6.Vm.Mem

variable {L : Layout} {M₀ M M' : Mem} {d : ℕ} {s s' : Room} {lost : Multiset ℕ} {P : Image}
  {path : List UInt8} {argv : List (List UInt8)} {entry : ℕ} {fs : FsHold}
  {loads pushes : List (ℕ × Store)} {out : Outcome}

/-! ## What can be read off the outcome -/

theorem execBad_eq {ip : Bool} {pgdir : Option ℕ}
    (h : execBad L pgdir ip fs P loads pushes M = .ok out) :
    out.loads = loads ∧ out.pushes = pushes := by
  rcases pgdir with _ | d
  · obtain rfl := Except.ok.inj h
    exact ⟨rfl, rfl⟩
  · rw [execBad] at h
    rcases hrun : M.freevm L (some d) with _ | M'
    · simp only [hrun] at h
      cases h
    · simp only [hrun] at h
      obtain rfl := Except.ok.inj h
      exact ⟨rfl, rfl⟩

theorem execStack_loads {sz : ℕ} (h : execStack L d entry fs path argv P sz loads M = .ok out) :
    out.loads = loads := by
  rw [execStack] at h
  rcases halloc : allocuvm L M d (pgroundup sz) ((pgroundup sz + 2 * pgsize) % 2 ^ 32) with _ | ⟨r, M₁⟩
  · rw [halloc] at h
    cases h
  simp only [halloc, ok_bind] at h
  split at h
  · exact (execBad_eq h).1
  rcases hclear : M₁.clearpteu d (r - 2 * pgsize) with _ | M₂
  · rw [hclear] at h
    cases h
  simp only [hclear, ok_bind] at h
  rcases hpush : pushArgs d r argv M₂ with _ | ⟨o, stores, M₃⟩
  · rw [hpush] at h
    cases h
  rw [hpush, ok_bind] at h
  rcases o with _ | sp
  · exact (execBad_eq h).1
  · simp only at h
    rcases hfree : M₃.freevm L (some P.pgdir) with _ | M₄
    · rw [hfree] at h
      cases h
    · rw [hfree] at h
      obtain rfl := Except.ok.inj h
      rfl

theorem argsFit_of_execStack (h : Loading L d M₀ userPerm M s lost)
    (hlen : ∀ arg ∈ argv, arg.length < 2 ^ 31)
    (hrun : execStack L d entry fs path argv P s.sz loads M = .ok out) :
    ∀ s', planStack s = some s' → ArgsFit (PushWalks s') s' argv ∧
      ((∀ q ∈ out.pushes, InStack q.1 q.2) → ArgsFit (PushFits s') s' argv) := by
  obtain ⟨r, M₁, lost', halloc, -, hM₁⟩ :=
    allocuvm_room h.roundup ((pgroundup s.sz + 2 * pgsize) % 2 ^ 32)
  have halloc' : allocuvm L M d (pgroundup s.sz) ((pgroundup s.sz + 2 * pgsize) % 2 ^ 32) =
    .ok (r, M₁) := halloc
  rw [execStack] at hrun
  simp only [halloc', ok_bind] at hrun
  intro s' hplan
  rw [← planStack, hplan] at hM₁
  obtain _ | ⟨hpos, hM₁⟩ := hM₁
  obtain ⟨hst, -⟩ := planStack_stack h.sane hplan
  obtain ⟨M₂, hclear, hM₂, -⟩ := clearpteu_ok hM₁ hst
  rw [if_neg hpos.ne'] at hrun
  simp only [hclear, ok_bind] at hrun
  rcases hpush : pushArgs d s'.sz argv M₂ with _ | ⟨r, stores, M₃⟩
  · rw [hpush] at hrun
    cases hrun
  rw [hpush, ok_bind] at hrun
  have hout : out.pushes = stores.map fun st => (s'.sz, st) := by
    rcases r with _ | sp
    · exact (execBad_eq hrun).2
    · simp only at hrun
      rcases hfree : M₃.freevm L (some P.pgdir) with _ | M₄
      · rw [hfree] at hrun
        cases hrun
      · rw [hfree] at hrun
        obtain rfl := Except.ok.inj hrun
        rfl
  refine ⟨argsFit_of_pushArgs hM₂ hst
    (fun hM hva hp hcopy (_ : ∀ st ∈ _, True) => pushWalks_of_copyout hM hva hp hcopy) hlen hpush
    fun _ _ => trivial, fun hin => ?_⟩
  refine argsFit_of_pushArgs hM₂ hst
    (fun hM hva hp hcopy (hgood : ∀ st ∈ _, InStack s'.sz st) => pushFits_of_copyout hM hst hva hp hcopy hgood) hlen hpush
    fun st hmem => ?_
  exact hin (s'.sz, st) (hout ▸ List.mem_map.mpr ⟨st, hmem, rfl⟩)

section Exec

variable {rd : Reader} {elf₀ : Elfhdr} (hs : Sound L M P.pgdir)
  (hlen : ∀ arg ∈ argv, arg.length < 2 ^ 31)

include hs hlen

/-- **If `exec` returns, and `loaduvm` has stored to the new image only, then all fits.** -/
theorem execFits_of_exec (hhead : HeaderTaken rd elf₀) (hF : 65 ≤ M.free.length)
    (hrun : exec L (some rd) elf₀ path argv P M = .ok out)
    (hconf : ∀ q ∈ out.loads, Confined M q.1 q.2) :
    ExecFits rd (headerOf rd elf₀) argv M.free.length ∧
      ((∀ q ∈ out.pushes, InStack q.1 q.2) →
        ∀ s s', planLoad rd (headerOf rd elf₀) M.free.length = some s → planStack s = some s' →
          ArgsFit (PushFits s') s' argv) := by
  obtain ⟨d, M₁, hsetup, hM₁⟩ := hs.setupkvm_loading hF
  rw [exec_taken hhead, hsetup, ok_bind] at hrun
  simp only at hrun
  rcases hload : loadSegments L rd d (headerOf rd elf₀).phnum (headerOf rd elf₀).phoff 1 0 M₁ with
    _ | ⟨r, loads, M₂⟩
  · rw [hload] at hrun
    cases hrun
  rw [hload, ok_bind] at hrun
  rcases r with _ | sz
  · have hseg := segmentsFit_of_loadSegments hM₁ hload ((execBad_eq hrun).1 ▸ hconf)
    obtain ⟨_, _, _, hload', -⟩ := loadSegments_ok hM₁ hseg
    have hnone : planLoad rd (headerOf rd elf₀) M.free.length = none := by
      have he := Except.ok.inj (hload.symm.trans hload')
      exact Option.map_eq_none_iff.mp (Prod.mk.inj he).1.symm
    refine ⟨⟨hseg, fun s s' he => ?_⟩, fun _ s s' he => ?_⟩
    all_goals
      rw [hnone] at he
      cases he
  · have hseg := segmentsFit_of_loadSegments hM₁ hload (execStack_loads hrun ▸ hconf)
    obtain ⟨_, _, _, hload', -, -, hM₂⟩ := loadSegments_ok hM₁ hseg
    obtain ⟨hplan, -, rfl⟩ := by simpa only [Prod.mk.injEq] using Except.ok.inj (hload.symm.trans hload')
    obtain ⟨s, hs', rfl⟩ := Option.map_eq_some_iff.mp hplan.symm
    rw [hs'] at hM₂
    have hargs := argsFit_of_execStack hM₂ hlen hrun
    have heq : ∀ s₁, planLoad rd (headerOf rd elf₀) M.free.length = some s₁ → s₁ = s := fun s₁ he =>
      Option.some.inj (he.symm.trans hs')
    refine ⟨⟨hseg, fun s₁ s' he hstack => ?_⟩, fun hin s₁ s' he hstack => ?_⟩
    · obtain rfl := heq s₁ he
      exact (hargs s' hstack).1
    · obtain rfl := heq s₁ he
      exact (hargs s' hstack).2 hin

end Exec

/-! ## Confinement -/

/-- `exec` returns; `loaduvm` has stored only to pages that `allocuvm` has mapped for the new image
below its size; and no page has changed that is neither free nor one of the process itself. -/
def Confines (L : Layout) (ip : Option Reader) (elf₀ : Elfhdr) (path : List UInt8)
    (argv : List (List UInt8)) (P : Image) (M : Mem) : Prop :=
  ∃ out, exec L ip elf₀ path argv P M = .ok out ∧ (out.ret = -1 ∨ out.ret = 0) ∧
    (∀ q ∈ out.loads, Confined M q.1 q.2) ∧
    ∀ g ∉ M.free, g ∉ M.held P.pgdir → out.mem.page g = M.page g

/-- **`exec` confines what an executable can write if and only if its segments fit**, and the
arguments are not pushed to where there is no page table. -/
theorem exec_confines_iff (L : Layout) (rd : Reader) (elf₀ : Elfhdr) (path : List UInt8)
    (argv : List (List UInt8)) (P : Image) (M : Mem) (hs : Sound L M P.pgdir)
    (hlen : ∀ arg ∈ argv, arg.length < 2 ^ 31) :
    Confines L (some rd) elf₀ path argv P M ↔
      (HeaderTaken rd elf₀ → 65 ≤ M.free.length →
        ExecFits rd (headerOf rd elf₀) argv M.free.length) := by
  constructor
  · rintro ⟨out, hrun, -, hconf, -⟩ hhead hF
    exact (execFits_of_exec hs hlen hhead hF hrun hconf).1
  · intro hfit
    obtain ⟨out, lost, hrun, hconf, -, hres, -⟩ := exec_ok (some rd) path hs hlen
      fun rd' he hhead hF => by
        cases he
        exact hfit hhead hF
    rcases hres with hf | ⟨_, _, _, _, _, _, _, _, hrep⟩
    · exact ⟨out, hrun, .inl hf.ret, hconf, fun g hg _ => hf.page g hg⟩
    · exact ⟨out, hrun, .inr hrep.ret, hconf, hrep.page⟩

/-! ## An executable that writes to the kernel -/

/-- An ELF file with one program header, for a segment that starts at offset `0` of the file. -/
def elfFile (vaddr filesz memsz : ℕ) : List UInt8 :=
  wordBytes elfMagic ++ List.replicate 24 0 ++ wordBytes 52 ++ List.replicate 12 0 ++ [1, 0] ++
    List.replicate 6 0 ++ wordBytes elfProgLoad ++ wordBytes 0 ++ wordBytes vaddr ++ wordBytes 0 ++
    wordBytes filesz ++ wordBytes memsz ++ List.replicate 8 0

/-- Its program header. -/
def fileProghdr (vaddr filesz memsz : ℕ) : Proghdr :=
  (Bytes.zero : Proghdr).copy 0 ((elfFile vaddr filesz memsz).drop 52)

/-- A process without any pages but the directory. -/
def bareImage : Image := ⟨1000, 0, [], 0, 0⟩

/-- Its memory, with `80` free pages. -/
def execMem : Mem := bareMem (List.range' 1001 80)

theorem execMem_sound : Sound someLayout execMem bareImage.pgdir :=
  bareMem_sound (by decide +kernel) (by decide +kernel)

/-- The segment goes to the text of the kernel, and ends at address `1` as its size wraps around. -/
def kernelFile : Reader := .ofFile (elfFile 0x80100000 4 0x7FF00001)

theorem exec_writes_kernel :
    Sound someLayout execMem bareImage.pgdir ∧
      ¬ Confines someLayout (some kernelFile) Bytes.zero [] [] bareImage execMem := by
  refine ⟨execMem_sound, ?_⟩
  rintro ⟨out, hrun, -, hconf, -⟩
  have hseg := (execFits_of_exec execMem_sound (List.forall_mem_nil _) (by decide +kernel)
    (by decide +kernel) hrun hconf).1.segments
  rw [show (headerOf kernelFile Bytes.zero).phnum = 1 by decide +kernel,
    show (headerOf kernelFile Bytes.zero).phoff = 52 by decide +kernel] at hseg
  have hph : readProghdr kernelFile 1 52 = some (fileProghdr 0x80100000 4 0x7FF00001) := rfl
  obtain ⟨-, hfits⟩ := (hseg _ hph).1 (by decide +kernel) (by decide +kernel) ⟨1, 1, 13⟩
    (by decide +kernel)
  rw [show (fileProghdr 0x80100000 4 0x7FF00001).vaddr = 0x80100000 by decide +kernel,
    show (fileProghdr 0x80100000 4 0x7FF00001).off = 0 by decide +kernel,
    show (fileProghdr 0x80100000 4 0x7FF00001).filesz = 4 by decide +kernel] at hfits
  obtain ⟨hpage | ⟨hnil, -⟩, -⟩ := hfits
  · exact absurd hpage (by decide +kernel)
  · exact absurd hnil (by decide +kernel)

/-- A segment of four bytes at address `0`, and one argument. -/
theorem exec_confines_small :
    Confines someLayout (some (.ofFile (elfFile 0 4 4))) Bytes.zero [] [[104, 105]] bareImage execMem := by
  refine (exec_confines_iff _ _ _ _ _ _ _ execMem_sound (by decide +kernel)).mpr fun _ _ => ⟨?_, ?_⟩
  · rw [show (headerOf (.ofFile (elfFile 0 4 4)) Bytes.zero).phnum = 1 by decide +kernel,
      show (headerOf (.ofFile (elfFile 0 4 4)) Bytes.zero).phoff = 52 by decide +kernel]
    refine segmentsFit_one
      (show readProghdr (.ofFile (elfFile 0 4 4)) 1 52 = some (fileProghdr 0 4 4) from rfl) fun _ _ s' hs' => ⟨by decide +kernel, ?_⟩
    have hgrow : Room.grow ⟨0, 0, execMem.free.length - 65⟩
        (((fileProghdr 0 4 4).vaddr + (fileProghdr 0 4 4).memsz) % 2 ^ 32) = some ⟨4, 1, 13⟩ := by
      decide +kernel
    obtain rfl := Option.some.inj (hs'.symm.trans hgrow)
    rw [show (fileProghdr 0 4 4).vaddr = 0 by decide +kernel,
      show (fileProghdr 0 4 4).off = 0 by decide +kernel,
      show (fileProghdr 0 4 4).filesz = 4 by decide +kernel]
    exact ⟨.inl (by decide +kernel), fun _ => trivial⟩
  · intro s s' hs hs'
    have hplan : planLoad (.ofFile (elfFile 0 4 4)) (headerOf (.ofFile (elfFile 0 4 4)) Bytes.zero)
        execMem.free.length = some ⟨4, 1, 13⟩ := by decide +kernel
    obtain rfl := Option.some.inj (hs.symm.trans hplan)
    have hstack : planStack ⟨4, 1, 13⟩ = some ⟨12288, 3, 11⟩ := by decide +kernel
    obtain rfl := Option.some.inj (hs'.symm.trans hstack)
    decide +kernel

end Xv6.Vm.Mem
