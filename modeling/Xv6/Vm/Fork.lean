import Xv6.Vm.System
import Xv6.Vm.Copy
import Xv6.Vm.Clean

/-!
# What is lost when memory runs out

When there are not enough pages for an address space, what has been allocated for it should be
given back.  Each of `setupkvm`, `copyuvm`, `fork` and `exec` has its own code for this, and two
pieces are missing: `setupkvm` keeps the directory and the page tables that it has made when there is
no page for the next one, and a page that has been allocated to be mapped is dropped when there is no
page for its page table.

So what matters is at which request the pages run out.

* `setupkvm_keeps_iff`, `copyuvm_keeps_iff`, `fork_keeps_iff`, `exec_keeps_iff` --- a failure loses
  nothing if and only if the first request that cannot be met is of the right kind.
-/

namespace Xv6.Vm

open Function List

open Proc (PId)

/-! ## Directories and copies -/

/-- There is a page for each of the directory and its page tables, or for none of them. -/
def DirFits (F : ℕ) : Prop := F = 0 ∨ 65 ≤ F

/-- And the first page that is missing for a copy of `sz` bytes is not one for a page table. -/
def CopyFits (sz F : ℕ) : Prop := F = 0 ∨ 65 ≤ F ∧ (Mem.copyRequests sz)[F - 65]? ≠ some .table

namespace Mem

variable {L : Layout} {M M' : Mem} {pgdir sz f : ℕ} {fs : List ℕ}

/-- The call returns, and if what it returns is `0` the free pages are those that were free before. -/
def Keeps (run : Mem → Except Stop (Option ℕ × Mem)) (M : Mem) : Prop :=
  ∃ r M', run M = .ok (r, M') ∧ (r = none → (M'.free : Multiset ℕ) = M.free)

theorem free_nil_iff (h : M'.free = []) : (M'.free : Multiset ℕ) = M.free ↔ M.free.length = 0 := by
  rw [h, Multiset.coe_nil, eq_comm, Multiset.coe_eq_zero, length_eq_zero_iff]

theorem keeps_of_none {run : Mem → Except Stop (Option ℕ × Mem)} (h : run M = .ok (none, M')) :
    Keeps run M ↔ (M'.free : Multiset ℕ) = M.free := by
  constructor
  · rintro ⟨r, M'', hrun, hkeeps⟩
    cases h.symm.trans hrun
    exact hkeeps rfl
  · exact fun he => ⟨none, M', h, fun _ => he⟩

theorem setupkvm_keeps_iff (hn : M.free.Nodup) (hal : ∀ f ∈ M.free, L.Allocatable f) :
    Keeps (setupkvm L) M ↔ DirFits M.free.length := by
  rcases Nat.lt_or_ge M.free.length 65 with hlt | hge
  · obtain ⟨M', hrun, hnil, -⟩ := setupkvm_fails hn hal hlt
    rw [keeps_of_none hrun, free_nil_iff hnil, DirFits]
    omega
  · obtain ⟨d, M', hrun, -⟩ := setupkvm_ok hn hal hge
    refine iff_of_true ⟨some d, M', hrun, fun h => ?_⟩ (.inr hge)
    cases h

theorem copyuvm_cases (hs : Sound L M pgdir)
    (hspace : ∀ v < pagesBetween 0 sz, present (M.pte pgdir v) = true) (hsz : sz < kernbase) :
    (∃ d M', copyuvm L M pgdir sz = .ok (some d, M') ∧ CopyFits sz M.free.length) ∨
    ∃ M', copyuvm L M pgdir sz = .ok (none, M') ∧
      ((M'.free : Multiset ℕ) = M.free ↔ CopyFits sz M.free.length) := by
  rcases Nat.lt_or_ge M.free.length 65 with hlt | hge
  · obtain ⟨M', hrun, hnil⟩ := copyuvm_noDir sz hs hlt
    refine .inr ⟨M', hrun, ?_⟩
    rw [free_nil_iff hnil, CopyFits]
    omega
  have hfits : CopyFits sz M.free.length ↔
      ((copyRequests sz).drop (M.free.length - 65))[0]? ≠ some .table := by
    rw [CopyFits, getElem?_drop, add_zero]
    exact ⟨fun h => (h.resolve_left (by omega)).2, fun h => .inr ⟨hge, h⟩⟩
  rw [hfits]
  rcases hreq : (copyRequests sz).drop (M.free.length - 65) with _ | ⟨r, rest⟩
  · obtain ⟨d, M₁, M', hrun, -⟩ := copyuvm_copied hs hspace hsz hge hreq
    refine .inl ⟨d, M', hrun, ?_⟩
    rw [getElem?_nil]
    exact Option.some_ne_none _ |>.symm
  rw [getElem?_cons_zero]
  rcases r with _ | _
  · obtain ⟨M', hrun, hfree⟩ := copyuvm_noPage hs hspace hsz hge hreq
    exact .inr ⟨M', hrun, iff_of_true hfree (by decide)⟩
  · obtain ⟨f, M', hrun, hfree⟩ := copyuvm_noTable hs hspace hsz hge hreq
    refine .inr ⟨M', hrun, iff_of_false (fun he => ?_) (by decide)⟩
    rw [← he] at hfree
    exact absurd (congrArg Multiset.card hfree) (by simp)

theorem copyuvm_keeps_iff (hs : Sound L M pgdir)
    (hspace : ∀ v < pagesBetween 0 sz, present (M.pte pgdir v) = true) (hsz : sz < kernbase) :
    Keeps (copyuvm L · pgdir sz) M ↔ CopyFits sz M.free.length := by
  rcases copyuvm_cases hs hspace hsz with ⟨d, M', hrun, hfits⟩ | ⟨M', hrun, hiff⟩
  · refine iff_of_true ⟨some d, M', hrun, fun h => ?_⟩ hfits
    cases h
  · rw [keeps_of_none hrun]
    exact hiff

end Mem

/-! ## `exec` -/

section Plan

variable {rd : Reader} {ph : Proghdr} {s s' : Room} {new n off k k' : ℕ}

theorem Room.not_leaks (h : s.need new ≤ s.free) : ¬ s.Leaks new := by
  rintro ⟨-, -, v, hv, hle, hmod, heq⟩
  have hsucc := usedBy_succ v
  rw [if_pos hmod] at hsucc
  have hmono : usedBy (v + 1) ≤ usedBy (pagesBetween 0 new) := usedBy_mono hv
  rw [Room.need] at h
  omega

theorem Room.free_of_leaks (hgrow : s.grow new = some s') (hleak : s.Leaks new) : s'.free = 0 := by
  rw [Room.grow, if_neg (not_le.mpr hleak.2.1), if_neg (not_lt.mpr hleak.1)] at hgrow
  split at hgrow
  · cases hgrow
  rw [if_neg fun h => Room.not_leaks h hleak] at hgrow
  split at hgrow
  · cases hgrow
    rfl
  · cases hgrow

theorem Room.free_grow_le (hgrow : s.grow new = some s') : s'.free ≤ s.free := by
  rw [Room.grow] at hgrow
  split at hgrow
  · cases hgrow
  split at hgrow
  · cases hgrow
    exact le_rfl
  split at hgrow
  · cases hgrow
  split at hgrow
  · cases hgrow
    exact Nat.sub_le _ _
  split at hgrow
  · cases hgrow
    exact Nat.zero_le _
  · cases hgrow

theorem planSegment_cases (h : planSegment rd ph k s = some (k', s')) :
    ph.type ≠ elfProgLoad ∧ s' = s ∨ s.grow ((ph.vaddr + ph.memsz) % 2 ^ 32) = some s' := by
  rw [planSegment] at h
  split at h
  · cases h
    exact .inl ⟨‹_›, rfl⟩
  split at h
  · cases h
  rcases hgrow : s.grow ((ph.vaddr + ph.memsz) % 2 ^ 32) with _ | s₁
  · rw [hgrow] at h
    cases h
  · rw [hgrow] at h
    simp only at h
    split at h
    · cases h
      exact .inr rfl
    · cases h

theorem planSegment_free (h : planSegment rd ph k s = some (k', s')) (hs : s.Sane) :
    s'.Sane ∧ s'.free ≤ s.free ∧ (0 < s'.free → leakSegment ph s = 0) := by
  rcases planSegment_cases h with ⟨htype, rfl⟩ | hgrow
  · exact ⟨hs, le_rfl, fun _ => if_neg fun hload => htype hload.1⟩
  · refine ⟨Room.grow_sane hs hgrow, Room.free_grow_le hgrow, fun hpos => if_neg fun hload => ?_⟩
    exact absurd (Room.free_of_leaks hgrow hload.2.2) hpos.ne'

theorem planSegments_free (h : planSegments rd n off k s = some s') (hs : s.Sane) :
    s'.Sane ∧ s'.free ≤ s.free ∧ (0 < s'.free → leakSegments rd n off k s = 0) := by
  induction n generalizing off k s with
  | zero =>
    cases h
    exact ⟨hs, le_rfl, fun _ => rfl⟩
  | succ n ih =>
    rw [planSegments] at h
    rw [leakSegments]
    rcases hph : readProghdr rd k off with _ | ph
    · rw [hph] at h
      cases h
    rcases hseg : planSegment rd ph (k + 1) s with _ | ⟨k', s₁⟩
    · rw [hph] at h
      simp only [hseg] at h
      cases h
    · rw [hph] at h
      simp only [hseg] at h ⊢
      obtain ⟨hs₁, hle, hleak⟩ := planSegment_free hseg hs
      obtain ⟨hs', hle', hleak'⟩ := ih h hs₁
      refine ⟨hs', hle'.trans hle, fun hpos => ?_⟩
      rw [hleak (by omega), hleak' hpos]

theorem planStack_free (h : s.Sane) (hplan : planStack s = some s') (hw : s'.mapped = s'.pages) :
    leakStack s = 0 ∧ 0 < s.free := by
  obtain ⟨hsane, hpages⟩ := h.roundup
  obtain ⟨hst, hsz⟩ := planStack_stack h hplan
  have hmod : (pgroundup s.sz + 2 * pgsize) % 2 ^ 32 = s'.sz := by
    rw [hsz]
    have := hst.sane.le
    have hle : pgroundup s.sz ≤ kernbase := hsane.le
    simp only [kernbase, pgsize] at *
    omega
  have hround : pgroundup s.sz = s.pages * pgsize := Mem.pgroundup_eq h.le
  have htwo : s'.pages = s.pages + 2 := by
    change pagesBetween 0 s'.sz = _
    rw [hsz, hround]
    simp only [pagesBetween, pgsize]
    omega
  have hmono : usedBy s.pages + 2 ≤ usedBy s'.pages := by
    rw [htwo, usedBy_succ, usedBy_succ]
    split <;> split <;> omega
  have hneed : s.roundup.need s'.sz ≤ s.roundup.free := by
    by_contra hlt
    rw [planStack, hmod, Room.grow] at hplan
    split at hplan
    · cases hplan
    split at hplan
    · rename_i hlt'
      change s'.sz < pgroundup s.sz at hlt'
      omega
    split at hplan
    · cases hplan
    split at hplan
    · have hm := congrArg Room.mapped (Option.some.inj hplan)
      change s'.pages - 1 = s'.mapped at hm
      omega
    · cases hplan
  refine ⟨?_, ?_⟩
  · rw [leakStack, hmod, if_neg (Room.not_leaks hneed)]
  · rw [Room.need, hpages] at hneed
    change usedBy s'.pages - usedBy s.pages ≤ s.free at hneed
    omega

end Plan

namespace Mem

section Exec

variable {L : Layout} {ip : Option Reader} {elf₀ : Elfhdr} {path : List UInt8} {argv : List (List UInt8)}
  {P : Image} {M : Mem} (hs : Sound L M P.pgdir) (hlen : ∀ arg ∈ argv, arg.length < 2 ^ 31)

include hs hlen

/-- If `exec` returns `-1`, then the free pages are those that were free before. -/
def ExecKeeps (L : Layout) (ip : Option Reader) (elf₀ : Elfhdr) (path : List UInt8)
    (argv : List (List UInt8)) (P : Image) (M : Mem) : Prop :=
  ∃ out, exec L ip elf₀ path argv P M = .ok out ∧
    (out.ret = -1 → (out.mem.free : Multiset ℕ) = M.free)

/-- What `exec` loses it loses in vain. -/
theorem exec_keeps_iff (hfit : ∀ rd, ip = some rd → HeaderTaken rd elf₀ → 65 ≤ M.free.length →
      ExecFits rd (headerOf rd elf₀) argv M.free.length) :
    ExecKeeps L ip elf₀ path argv P M ↔ lostBy ip elf₀ M.free.length = 0 := by
  obtain ⟨out, lost, hrun, -, hcard, hres, -⟩ := exec_ok ip path hs hlen hfit
  have hrun' : ExecKeeps L ip elf₀ path argv P M ↔
      (out.ret = -1 → (out.mem.free : Multiset ℕ) = M.free) := by
    constructor
    · rintro ⟨out', hout', hkeeps⟩
      cases hrun.symm.trans hout'
      exact hkeeps
    · exact fun h => ⟨out, hrun, h⟩
  rw [hrun']
  rcases hres with hf | ⟨rd, s, s', rfl, hhead, hF, hload, hstack, hrep⟩
  · rw [← hcard, Multiset.card_eq_zero]
    have hfree := hf.free
    constructor
    · intro h
      rw [h hf.ret] at hfree
      exact add_eq_left.mp hfree
    · rintro rfl _
      rw [← hfree, add_zero]
  · refine iff_of_true (fun h => ?_) ?_
    · rw [hrep.ret] at h
      exact absurd h (by decide)
    · obtain ⟨hsane, -, hleak⟩ := planSegments_free hload
        ⟨Nat.zero_le _, .inl (show 0 = pagesBetween 0 0 from rfl)⟩
      obtain ⟨hleak', hpos⟩ := planStack_free hsane hstack hrep.whole
      rw [lostBy, if_pos hhead, if_neg (not_lt.mpr hF), leakExec, hload, hleak hpos]
      change 0 + leakStack s = 0
      rw [hleak']

end Exec

end Mem

/-! ## `fork` -/

namespace System

variable {L : Layout} {S S' : System} {p q : PId} {f : ℕ} {fs : List ℕ}

/-- The free pages are those that were free before, every process is in the state that it was in, and
no reference to a file or an inode has been taken. -/
structure Undone (S S' : System) : Prop where
  free : (S'.mem.free : Multiset ℕ) = S.mem.free
  state : ∀ q, (S'.proc q).state = (S.proc q).state
  ofile : ∀ q, (S'.proc q).ofile = (S.proc q).ofile
  cwd : ∀ q, (S'.proc q).cwd = (S.proc q).cwd
  file : S'.file = S.file
  inodeRef : S'.inodeRef = S.inodeRef

/-- If `fork` returns `-1` then nothing has happened. -/
def ForkKeeps (L : Layout) (S : System) (p : PId) : Prop :=
  ∀ S', fork L S p = .ok (-1, S') → Undone S S'

/-- The slot that `allocproc` takes. -/
def unusedSlot (S : System) : Option PId :=
  (List.finRange nproc).find? fun q => (S.proc q).state = .unused

/-- There is no slot or no page for the kernel stack, or `copyuvm` has what it needs. -/
def ForkFits (S : System) (p : PId) : Prop :=
  S.unusedSlot = none ∨ S.mem.free.length = 0 ∨ CopyFits (S.proc p).sz (S.mem.free.length - 1)

theorem state_unusedSlot (h : S.unusedSlot = some q) : (S.proc q).state = .unused := by
  simpa using find?_some h

/-- The slot `q` has been taken, with the kernel stack `f`. -/
def embryo (S : System) (q : PId) (f : ℕ) (fs : List ℕ) : System :=
  { S.setProc q fun e =>
      { e with state := .embryo, threads := true, pid := S.nextpid, kstack := f } with
    nextpid := S.nextpid + 1
    mem := { S.mem with free := fs }
    thread := fun s => if s.1 = q then .unused else S.thread s }

theorem allocproc_noSlot (h : S.unusedSlot = none) : S.allocproc = (none, S) := by
  rw [unusedSlot] at h
  rw [allocproc, h]

theorem allocproc_noPage (h : S.unusedSlot = some q) (hfree : S.mem.free = []) :
    ∃ S', S.allocproc = (none, S') ∧ Undone S S' := by
  have hstate := state_unusedSlot h
  rw [unusedSlot] at h
  rw [allocproc, h]
  simp only [setProc, Mem.kalloc_nil hfree]
  refine ⟨_, rfl, ⟨rfl, fun r => ?_, fun r => ?_, fun r => ?_, rfl, rfl⟩⟩
  all_goals
    rcases eq_or_ne r q with rfl | hr
    · simp [hstate]
    · simp [hr]

theorem allocproc_found (h : S.unusedSlot = some q) (hfree : S.mem.free = f :: fs) :
    S.allocproc = (some q, S.embryo q f fs) := by
  rw [unusedSlot] at h
  rw [allocproc, h]
  simp only [setProc, Mem.kalloc_cons hfree, embryo, update_self, update_idem]

theorem proc_embryo (h : q ≠ p) : (S.embryo q f fs).proc p = S.proc p :=
  update_of_ne h.symm _ _

theorem pid_forkFiles {np : PId} {fds : List (Fin nofile)} (h : forkFiles p np fds S = .ok S') :
    (S'.proc q).pid = (S.proc q).pid := by
  induction fds generalizing S with
  | nil =>
    cases h
    rfl
  | cons fd fds ih =>
    rw [forkFiles] at h
    split at h
    · exact ih h
    · rename_i g _
      rw [filedup] at h
      split at h
      · cases h
      · have hpid := ih h
        rw [hpid]
        rcases eq_or_ne q np with rfl | hq
        · simp [setProc, setFile]
        · simp [setProc, setFile, hq]

section Fork

variable (hs : Mem.Sound L S.mem (S.proc p).pgdir) (hp : (S.proc p).state ≠ .unused)

include hs hp

omit hp in
theorem sound_embryo (hfree : S.mem.free = f :: fs) :
    Mem.Sound L { S.mem with free := fs } (S.proc p).pgdir := by
  have hsub : ((fs : Multiset ℕ) + S.mem.held (S.proc p).pgdir) ≤
      S.mem.free + S.mem.held (S.proc p).pgdir := by
    rw [hfree, ← Multiset.cons_coe]
    exact add_le_add_left (Multiset.le_cons_self _ _) _
  exact ⟨Multiset.nodup_of_le hsub hs.nodup, fun g hg => hs.takes g (Multiset.mem_of_le hsub hg)⟩

theorem fork_fails (h : S.unusedSlot = some q) (hfree : S.mem.free = f :: fs) {M : Mem}
    (hcopy : Mem.copyuvm L { S.mem with free := fs } (S.proc p).pgdir (S.proc p).sz = .ok (none, M)) :
    ∃ S', fork L S p = .ok (-1, S') ∧ ((M.free : Multiset ℕ) = fs ↔ Undone S S') := by
  have hstate := state_unusedSlot h
  have hqp : q ≠ p := fun he => hp (he ▸ hstate)
  have hal : L.Allocatable f := hs.takes_free (by rw [hfree]; exact mem_cons_self)
  have hkstack : ((S.embryo q f fs).proc q).kstack = f := by simp [embryo, setProc]
  have hmem : (S.embryo q f fs).mem = { S.mem with free := fs } := rfl
  rw [fork, allocproc_found h hfree]
  simp only [proc_embryo hqp, hmem, hcopy, ok_bind, hkstack, Mem.kfree_eq hal]
  refine ⟨_, rfl, ?_⟩
  have hM : ((M.freed f).free : Multiset ℕ) = S.mem.free ↔ (M.free : Multiset ℕ) = fs := by
    rw [hfree]
    change ((f :: M.free : List ℕ) : Multiset ℕ) = (f :: fs : List ℕ) ↔ _
    rw [← Multiset.cons_coe, ← Multiset.cons_coe, Multiset.cons_inj_right]
  rw [← hM]
  refine ⟨fun hkept => ⟨hkept, fun r => ?_, fun r => ?_, fun r => ?_, rfl, rfl⟩, fun hu => hu.free⟩
  all_goals
    rcases eq_or_ne r q with rfl | hr
    · simp [embryo, setProc, hstate]
    · simp [embryo, setProc, hr]

omit hs in
theorem fork_copies (h : S.unusedSlot = some q) (hfree : S.mem.free = f :: fs) {M : Mem} {d : ℕ}
    (hcopy : Mem.copyuvm L { S.mem with free := fs } (S.proc p).pgdir (S.proc p).sz = .ok (some d, M))
    {r : Int32} (hrun : fork L S p = .ok (r, S')) : r = S.nextpid := by
  have hqp : q ≠ p := fun he => hp (he ▸ state_unusedSlot h)
  have hmem : (S.embryo q f fs).mem = { S.mem with free := fs } := rfl
  rw [fork, allocproc_found h hfree] at hrun
  simp only [proc_embryo hqp, hmem, hcopy, ok_bind] at hrun
  set S₁ : System := { (S.embryo q f fs).setProc q fun e =>
    { e with pgdir := d, sz := (S.proc p).sz, parent := some p, eip := (S.proc p).eip,
             esp := (S.proc p).esp } with mem := M } with hS₁
  rcases hfiles : forkFiles p q (List.finRange nofile) S₁ with e | S₂
  · rw [hfiles] at hrun
    cases hrun
  have hpid : (S₂.proc q).pid = S.nextpid := by
    rw [pid_forkFiles hfiles, hS₁]
    simp [embryo, setProc]
  rw [hfiles, ok_bind] at hrun
  rcases hcwd : (S.proc p).cwd with _ | ip
  · rw [hcwd] at hrun
    cases hrun
  · rw [hcwd] at hrun
    obtain ⟨hr, -⟩ := Prod.mk.inj (Except.ok.inj hrun)
    rw [← hr, ← hpid]
    simp [setProc, idup]

omit hs hp in
theorem undone_refl : Undone S S := ⟨rfl, fun _ => rfl, fun _ => rfl, fun _ => rfl, rfl, rfl⟩

omit hs hp in
theorem forkKeeps_of_run (h : fork L S p = .ok (-1, S')) : ForkKeeps L S p ↔ Undone S S' := by
  constructor
  · exact fun hkeeps => hkeeps S' h
  · intro hu S'' hrun
    cases h.symm.trans hrun
    exact hu

/-- **A failed `fork` undoes all it has done if and only if the pages run out at the right place.** -/
theorem fork_keeps_iff (hsz : (S.proc p).sz < kernbase)
    (hspace : ∀ v < pagesBetween 0 (S.proc p).sz, present (S.mem.pte (S.proc p).pgdir v) = true)
    (hpid : S.nextpid ≠ -1) : ForkKeeps L S p ↔ ForkFits S p := by
  rcases hslot : S.unusedSlot with _ | q
  · have hrun : fork L S p = .ok (-1, S) := by rw [fork, allocproc_noSlot hslot]
    rw [forkKeeps_of_run hrun]
    exact iff_of_true undone_refl (.inl hslot)
  rcases hfree : S.mem.free with _ | ⟨f, fs⟩
  · obtain ⟨S', halloc, hu⟩ := allocproc_noPage hslot hfree
    have hrun : fork L S p = .ok (-1, S') := by rw [fork, halloc]
    rw [forkKeeps_of_run hrun]
    exact iff_of_true hu (.inr (.inl (by rw [hfree]; rfl)))
  have hfits : ForkFits S p ↔ CopyFits (S.proc p).sz fs.length := by
    rw [ForkFits, hslot, hfree, length_cons, Nat.add_sub_cancel]
    simp
  rw [hfits]
  rcases Mem.copyuvm_cases (sound_embryo hs hfree) hspace hsz with ⟨d, M, hcopy, hok⟩ | ⟨M, hcopy, hiff⟩
  · refine iff_of_true (fun S' hrun => ?_) hok
    exact absurd (fork_copies hp hslot hfree hcopy hrun).symm hpid
  · obtain ⟨S', hrun, hu⟩ := fork_fails hs hp hslot hfree hcopy
    rw [forkKeeps_of_run hrun, ← hu]
    exact hiff

end Fork

/-- **When memory runs out nothing is lost if and only if it runs out at the right place**: not
between the directory and the last page table of `setupkvm`, and not at the page table for a page that
has been allocated. -/
theorem nothing_lost_iff (L : Layout) (S : System) (p : PId) (ip : Option Reader) (elf₀ : Elfhdr)
    (path : List UInt8) (argv : List (List UInt8)) (hs : Mem.Sound L S.mem (S.proc p).pgdir)
    (hp : (S.proc p).state ≠ .unused) (hsz : (S.proc p).sz < kernbase)
    (hspace : ∀ v < pagesBetween 0 (S.proc p).sz, present (S.mem.pte (S.proc p).pgdir v) = true)
    (hpid : S.nextpid ≠ -1) (hlen : ∀ arg ∈ argv, arg.length < 2 ^ 31)
    (hfit : ∀ rd, ip = some rd → HeaderTaken rd elf₀ → 65 ≤ S.mem.free.length →
      ExecFits rd (headerOf rd elf₀) argv S.mem.free.length) :
    (Mem.Keeps (Mem.setupkvm L) S.mem ↔ DirFits S.mem.free.length) ∧
    (Mem.Keeps (Mem.copyuvm L · (S.proc p).pgdir (S.proc p).sz) S.mem ↔
      CopyFits (S.proc p).sz S.mem.free.length) ∧
    (ForkKeeps L S p ↔ ForkFits S p) ∧
    (Mem.ExecKeeps L ip elf₀ path argv (S.proc p).toImage S.mem ↔
      lostBy ip elf₀ S.mem.free.length = 0) :=
  ⟨Mem.setupkvm_keeps_iff hs.free_nodup fun _ hf => hs.takes_free hf,
    Mem.copyuvm_keeps_iff hs hspace hsz, fork_keeps_iff hs hp hsz hspace hpid,
    Mem.exec_keeps_iff hs hlen hfit⟩

/-- A process without any pages but the directory, and nothing else. -/
def bareSystem (free : List ℕ) : System where
  proc q := ⟨if q = 0 then Mem.bareImage else ⟨0, 0, [], 0, 0⟩, 0,
    if q = 0 then .running else .unused, 0, none, false, fun _ => none, some 0, q = 0⟩
  thread s := if s = (0, 0) then .running else .unused
  initproc := 0
  nextpid := 2
  file _ := ⟨0, .none⟩
  inodeRef _ := 1
  pipe _ := none
  mem := Mem.bareMem free

/-- With two free pages all of them fail, and both pages are lost; only that `fork` gives back the
page of the kernel stack. -/
theorem two_pages_lost :
    Mem.Sound Mem.someLayout (bareSystem [1001, 1002]).mem ((bareSystem [1001, 1002]).proc 0).pgdir ∧
    ¬ Mem.Keeps (Mem.setupkvm Mem.someLayout) (bareSystem [1001, 1002]).mem ∧
    ¬ Mem.Keeps (Mem.copyuvm Mem.someLayout · 1000 0) (bareSystem [1001, 1002]).mem ∧
    ¬ ForkKeeps Mem.someLayout (bareSystem [1001, 1002]) 0 ∧
    ¬ Mem.ExecKeeps Mem.someLayout (some Mem.bssFile) Bytes.zero [] [] Mem.bareImage
      (bareSystem [1001, 1002]).mem := by
  have hs : Mem.Sound Mem.someLayout (bareSystem [1001, 1002]).mem 1000 :=
    Mem.bareMem_sound (by decide) (by decide)
  have hspace : ∀ v < pagesBetween 0 0, present ((bareSystem [1001, 1002]).mem.pte 1000 v) = true :=
    fun v hv => absurd hv (Nat.not_lt_zero v)
  refine ⟨hs, ?_, ?_, ?_, ?_⟩
  · rw [Mem.setupkvm_keeps_iff hs.free_nodup fun _ hf => hs.takes_free hf]
    exact show ¬ DirFits 2 by
      rw [DirFits]
      omega
  · rw [Mem.copyuvm_keeps_iff hs hspace (by decide)]
    exact show ¬ CopyFits 0 2 by
      rw [CopyFits]
      omega
  · rw [fork_keeps_iff hs (by decide) (by decide) hspace (by decide), ForkFits, not_or, not_or]
    refine ⟨by decide, by decide, ?_⟩
    exact show ¬ CopyFits 0 1 by
      rw [CopyFits]
      omega
  · rw [Mem.exec_keeps_iff hs (forall_mem_nil _) fun _ _ _ h => absurd h (by decide)]
    exact show lostBy (some Mem.bssFile) Bytes.zero 2 ≠ 0 by decide +kernel

/-- With no free page nothing can be lost. -/
theorem nothing_lost_none :
    Mem.Keeps (Mem.setupkvm Mem.someLayout) (bareSystem []).mem ∧
    ForkKeeps Mem.someLayout (bareSystem []) 0 ∧
    Mem.ExecKeeps Mem.someLayout (some Mem.bssFile) Bytes.zero [] [] Mem.bareImage (bareSystem []).mem := by
  obtain ⟨hsetup, -, hfork, hexec⟩ := nothing_lost_iff Mem.someLayout (bareSystem []) 0 (some Mem.bssFile)
    Bytes.zero [] [] (Mem.bareMem_sound (by decide) (by decide)) (by decide) (by decide)
    (fun v hv => absurd hv (Nat.not_lt_zero v)) (by decide) (forall_mem_nil _)
    fun _ _ _ h => absurd h (by decide)
  exact ⟨hsetup.mpr (.inl rfl), hfork.mpr (.inr (.inl rfl)), hexec.mpr (by decide +kernel)⟩

end System

end Xv6.Vm
