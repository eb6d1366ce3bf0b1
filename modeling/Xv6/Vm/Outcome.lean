import Xv6.Vm.Args

/-!
# `exec` as a whole

What `exec` does is planned by what is read from the file and the number of free pages
(`planLoad`, `planStack`).  If the plan fits (`ExecFits`) then `exec` returns, and there are two
outcomes:

* `Failed` --- the process is as before, and so is the rest of the memory, but that some of the free
  pages may be lost.
* `Replaced` --- the process has the new image, with the arguments on its stack, and the pages of
  the old one are free.

`exec_ok` says which, and how many pages are lost.
-/

namespace Xv6.Vm

open List
open Multiset (card_add coe_card mem_add)

variable {s s' : Room}

/-! ## The plan -/

/-- What the image is when the program has been loaded, if there were `F` free pages. -/
def planLoad (rd : Reader) (elf : Elfhdr) (F : ℕ) : Option Room :=
  planSegments rd elf.phnum elf.phoff 1 ⟨0, 0, F - 65⟩

/-- The segments go to pages that are mapped, and the arguments to addresses that have a page
table. -/
structure ExecFits (rd : Reader) (elf : Elfhdr) (argv : List (List UInt8)) (F : ℕ) : Prop where
  segments : SegmentsFit rd elf.phnum elf.phoff 1 ⟨0, 0, F - 65⟩
  args : ∀ s s', planLoad rd elf F = some s → planStack s = some s' → ArgsFit (PushWalks s') s' argv

/-- The header that `exec` goes by. -/
def headerOf (rd : Reader) (elf₀ : Elfhdr) : Elfhdr := Mem.readElf elf₀ (rd.read 0 0 52)

/-- The header passes the checks of `exec`. -/
def HeaderTaken (rd : Reader) (elf₀ : Elfhdr) : Prop :=
  52 ≤ Mem.readCount (rd.read 0 0 52) ∧ (headerOf rd elf₀).magic = elfMagic

instance (rd : Reader) (elf₀ : Elfhdr) : Decidable (HeaderTaken rd elf₀) :=
  inferInstanceAs (Decidable (_ ∧ _))

/-- How many pages the stack loses. -/
def leakStack (s : Room) : ℕ :=
  if s.roundup.Leaks ((pgroundup s.sz + 2 * pgsize) % 2 ^ 32) then 1 else 0

/-- How many pages `exec` loses. -/
def leakExec (rd : Reader) (elf : Elfhdr) (F : ℕ) : ℕ :=
  leakSegments rd elf.phnum elf.phoff 1 ⟨0, 0, F - 65⟩ + (planLoad rd elf F).elim 0 leakStack

/-- How many of `F` free pages `exec` loses. -/
def lostBy (ip : Option Reader) (elf₀ : Elfhdr) (F : ℕ) : ℕ :=
  match ip with
  | none => 0
  | some rd =>
    if HeaderTaken rd elf₀ then if F < 65 then F else leakExec rd (headerOf rd elf₀) F else 0

theorem Room.Sane.roundup (h : s.Sane) : s.roundup.Sane ∧ s.roundup.pages = s.pages := by
  have hle := h.le
  have hsz : pgroundup s.sz ≤ kernbase := by
    rw [Mem.pgroundup_eq hle]
    have := Mem.pagesBetween_le hle
    simp only [userPages, kernbase, pgsize] at *
    omega
  have hpages : s.roundup.pages = s.pages := by
    change pagesBetween 0 (pgroundup s.sz) = pagesBetween 0 s.sz
    rw [Mem.pgroundup_eq hle]
    simp only [pagesBetween, pgsize]
    omega
  refine ⟨⟨hsz, ?_⟩, hpages⟩
  rw [hpages]
  exact h.whole

theorem planStack_stack (h : s.Sane) (hplan : planStack s = some s') :
    s'.Stack ∧ s'.sz = pgroundup s.sz + 2 * pgsize := by
  obtain ⟨hr, -⟩ := h.roundup
  have hsane := Room.grow_sane hr hplan
  have hle : pgroundup s.sz ≤ kernbase := hr.le
  have hsz : s'.sz = pgroundup s.sz + 2 * pgsize := by
    have hmod : (pgroundup s.sz + 2 * pgsize) % 2 ^ 32 = pgroundup s.sz + 2 * pgsize := by
      simp only [kernbase, pgsize] at *
      omega
    rw [planStack, hmod, Room.grow] at hplan
    have hge : ¬ pgroundup s.sz + 2 * pgsize < s.roundup.sz := by
      change ¬ pgroundup s.sz + 2 * pgsize < pgroundup s.sz
      omega
    rw [if_neg hge] at hplan
    split at hplan
    · cases hplan
    split at hplan
    · cases hplan
    split at hplan
    · cases hplan
      rfl
    split at hplan
    · cases hplan
      rfl
    · cases hplan
  have hpages : s'.pages = s.pages + 2 := by
    rw [Room.pages, hsz, Mem.pgroundup_eq h.le]
    simp only [Room.pages, pagesBetween, pgsize]
    omega
  refine ⟨⟨hsane, by omega, ?_⟩, hsz⟩
  rw [hsz, hpages, Mem.pgroundup_eq h.le, Room.pages, add_mul]

namespace Mem

variable {L : Layout} {M₀ M M' : Mem} {d p k n : ℕ} {perm : ℕ → ℕ} {lost lost' : Multiset ℕ}

/-! ## Other directories -/

section Others

variable (h : ∀ g ∉ M₀.free, M.page g = M₀.page g) (hp : Sound L M₀ p)

include h hp

theorem page_of_mem_nodes {g : ℕ} (hg : g ∈ M₀.nodes p) : M.page g = M₀.page g :=
  h g fun hf => hp.notMem_nodes hf hg

theorem held_other : M.held p = M₀.held p := by
  rw [held, held, nodes_congr fun j _ => table_congr (page_of_mem_nodes h hp root_mem) j,
    pages_congr fun v hv => pte_congr (fun g hg => page_of_mem_nodes h hp hg) (userPages_lt hv)]

end Others

theorem Loading.roundup (h : Loading L d M₀ perm M s lost) : Loading L d M₀ perm M s.roundup lost :=
  ⟨h.toOwned, h.toSpread, h.sane.roundup.1, h.free⟩

theorem Loading.card_le (h : Loading L d M₀ perm M s lost) :
    65 + usedBy s.mapped ≤ M₀.free.length := by
  have hcard := congrArg Multiset.card h.total
  rw [card_add, card_add, coe_card, coe_card,
    h.card_held] at hcard
  omega

theorem Owned.freevm (h : Owned L d M₀ M lost) :
    ∃ M', M.freevm L (some d) = .ok M' ∧ (M'.free : Multiset ℕ) + lost = M₀.free ∧
      ∀ g ∉ M₀.free, M'.page g = M₀.page g := by
  obtain ⟨M', hrun, hfree, hpage⟩ := freevm_ok (L := L) h.sound.held_nodup fun f hf =>
    h.sound.takes_held hf
  refine ⟨M', hrun, ?_, fun g hg => ?_⟩
  · rw [hfree, ← h.total, add_comm (M.held d)]
  · rw [hpage g fun hmem => hg (h.mem_free (mem_add.mpr (.inr hmem))), h.page g hg]

/-! ## Outcomes -/

/-- `exec` has failed, and the process is as before. -/
structure Failed (M₀ : Mem) (P : Image) (lost : Multiset ℕ) (out : Outcome) : Prop where
  ret : out.ret = -1
  image : out.image = P
  fs : out.fs = FsHold.closed
  free : (out.mem.free : Multiset ℕ) + lost = M₀.free
  page : ∀ g ∉ M₀.free, out.mem.page g = M₀.page g

/-- `exec` has succeeded: the process has a new image, of size `s.sz`. -/
structure Replaced (L : Layout) (M₀ : Mem) (P : Image) (path : List UInt8) (argv : List (List UInt8))
    (entry : ℕ) (s : Room) (lost : Multiset ℕ) (out : Outcome) : Prop where
  ret : out.ret = 0
  fs : out.fs = FsHold.closed
  sz : out.image.sz = s.sz
  name : out.image.name = progName path
  eip : out.image.eip = entry
  whole : s.mapped = s.pages
  room : 65 + usedBy s.pages ≤ M₀.free.length
  spread : Spread L out.image.pgdir (stackPerm s.pages) out.mem s.pages
  args : ArgLayout out.mem out.image.pgdir s.sz argv out.image.esp
  total : (out.mem.free : Multiset ℕ) + out.mem.held out.image.pgdir + lost =
    M₀.free + M₀.held P.pgdir
  page : ∀ g ∉ M₀.free, g ∉ M₀.held P.pgdir → out.mem.page g = M₀.page g

theorem freevm_old {P : Image} (h : Loading L d M₀ perm M s lost) (hp : Sound L M₀ P.pgdir) :
    ∃ M', M.freevm L (some P.pgdir) = .ok M' ∧
      Spread L d perm M' s.mapped ∧ (∀ a, a / pgsize < s.mapped → M'.userByte d a = M.userByte d a) ∧
      (M'.free : Multiset ℕ) + M'.held d + lost = M₀.free + M₀.held P.pgdir ∧
      ∀ g ∉ M₀.free, g ∉ M₀.held P.pgdir → M'.page g = M₀.page g := by
  have hheld := held_other h.page hp
  obtain ⟨M', hrun, hfree, hpage⟩ := freevm_ok (L := L) (M := M) (d := P.pgdir)
    (hheld ▸ hp.held_nodup) fun f hf => hp.takes_held (hheld ▸ hf)
  rw [hheld] at hfree hpage
  have hnew : ∀ g ∈ M.held d, M'.page g = M.page g := by
    intro g hg
    refine hpage g fun hmem => ?_
    exact hp.notMem_held (h.toOwned.mem_free (mem_add.mpr (.inr hg))) hmem
  have hnodes : ∀ g ∈ M.nodes d, M'.page g = M.page g := fun g hg =>
    hnew g (mem_add.mpr (.inl hg))
  have hpte : ∀ v < 2 ^ 20, M'.pte d v = M.pte d v := fun v hv => pte_congr hnodes hv
  have htable : ∀ j, M'.table d j = M.table d j := fun j => table_congr (hnodes d root_mem) j
  have hd : M'.held d = M.held d := by
    rw [held, held, nodes_congr fun j _ => htable j, pages_congr fun v hv => hpte v (userPages_lt hv)]
  refine ⟨M', hrun, h.congr hpte htable, fun a ha => ?_, ?_, fun g hg hgp => ?_⟩
  · rw [userByte, userByte, hpte _ (userPages_lt (ha.trans_le h.le)),
      hnew _ (mem_add.mpr (.inr (h.mem_pages ha)))]
  · rw [hd, hfree, ← h.total]
    abel
  · rw [hpage g hgp, h.page g hg]

/-! ## The stack -/

section Stack

variable {P : Image} {path : List UInt8} {argv : List (List UInt8)} {entry : ℕ}
  {loads : List (ℕ × Store)} (h : Loading L d M₀ userPerm M s lost) (hp : Sound L M₀ P.pgdir)
  (hlen : ∀ arg ∈ argv, arg.length < 2 ^ 31)

variable (P loads) in
theorem execBad_freevm (ip : Bool) (fs : FsHold) (pushes : List (ℕ × Store))
    (h : Owned L d M₀ M lost) (hfs : (if ip then fs.iunlockput.endOp else fs) = FsHold.closed) :
    ∃ out, execBad L (some d) ip fs P loads pushes M = .ok out ∧ out.loads = loads ∧
      out.pushes = pushes ∧ Failed M₀ P lost out := by
  obtain ⟨M', hrun, hfree, hpage⟩ := h.freevm
  refine ⟨⟨-1, P, FsHold.closed, loads, pushes, M'⟩, ?_, rfl, rfl, ⟨rfl, rfl, rfl, hfree, hpage⟩⟩
  rw [execBad]
  simp only [hrun, ok_bind, hfs]
  rfl

include h hp hlen

variable (path entry loads) in
theorem execStack_ok (hfit : ∀ s', planStack s = some s' → ArgsFit (PushWalks s') s' argv) :
    ∃ out lost', execStack L d entry FsHold.closed path argv P s.sz loads M = .ok out ∧
      lost'.card = lost.card + leakStack s ∧ out.loads = loads ∧
      (Failed M₀ P lost' out ∨
        ∃ s', planStack s = some s' ∧ Replaced L M₀ P path argv entry s' lost' out) ∧
      ((∀ s', planStack s = some s' → ArgsFit (PushFits s') s' argv) →
        ∀ q ∈ out.pushes, InStack q.1 q.2) := by
  obtain ⟨r, M₁, lost', hrun, hcard, hM₁⟩ :=
    allocuvm_room h.roundup ((pgroundup s.sz + 2 * pgsize) % 2 ^ 32)
  rw [execStack]
  have hrun' : allocuvm L M d (pgroundup s.sz) ((pgroundup s.sz + 2 * pgsize) % 2 ^ 32) = .ok (r, M₁) :=
    hrun
  simp only [hrun', ok_bind]
  rcases hplan : planStack s with _ | s'
  · rw [← planStack, hplan] at hM₁
    obtain hM₁ | _ := hM₁
    obtain ⟨out, hout, hloads, hpushes, hfailed⟩ :=
      execBad_freevm P loads false FsHold.closed [] hM₁ rfl
    refine ⟨out, lost', by rw [if_pos rfl]; exact hout, hcard, hloads, .inl hfailed, fun _ => ?_⟩
    rw [hpushes]
    exact forall_mem_nil _
  · rw [← planStack, hplan] at hM₁
    obtain _ | ⟨hpos, hM₁⟩ := hM₁
    obtain ⟨hst, -⟩ := planStack_stack h.sane hplan
    obtain ⟨M₂, hclear, hM₂, -⟩ := clearpteu_ok hM₁ hst
    obtain ⟨r, stores, M₃, hpush, hM₃, hin, hdone⟩ := pushArgs_ok hM₂ hst hlen (hfit s' hplan)
    rw [if_neg hpos.ne']
    simp only [hclear, ok_bind, hpush]
    have hpushes : (∀ s'', some s' = some s'' → ArgsFit (PushFits s'') s'' argv) →
        ∀ q ∈ stores.map fun st => (s'.sz, st), InStack q.1 q.2 := by
      intro hf q hq
      obtain ⟨st, hst, rfl⟩ := mem_map.mp hq
      exact hin (hf s' rfl) st hst
    rcases r with _ | sp
    · obtain ⟨out, hout, hloads, hp', hfailed⟩ := execBad_freevm P loads false FsHold.closed
        (stores.map fun st => (s'.sz, st)) hM₃.toOwned rfl
      exact ⟨out, lost', hout, hcard, hloads, .inl hfailed, hp' ▸ hpushes⟩
    · obtain ⟨hw, hlayout⟩ := hdone sp rfl
      obtain ⟨M₄, hfree, hspread, hbyte, htotal, hpage⟩ := freevm_old hM₃ hp
      refine ⟨⟨0, ⟨d, s'.sz, progName path, entry, sp⟩, FsHold.closed, loads,
        stores.map fun st => (s'.sz, st), M₄⟩, lost', ?_, hcard, rfl, .inr ⟨s', rfl, ?_⟩, hpushes⟩
      · simp only [hfree, ok_bind]
        rfl
      · refine ⟨rfl, rfl, rfl, rfl, rfl, hw, hw ▸ hM₃.card_le, hw ▸ hspread,
          hlayout.congr fun x hx => ?_, htotal, hpage⟩
        have hround := hst.round
        refine hbyte x ?_
        change x < s'.sz at hx
        simp only [pgsize] at *
        omega

end Stack

/-! ## `exec` -/

section Exec

variable {ip : Option Reader} {rd : Reader} {elf₀ : Elfhdr} {path : List UInt8}
  {argv : List (List UInt8)} {P : Image}

theorem exec_refused (h : ¬ HeaderTaken rd elf₀) :
    exec L (some rd) elf₀ path argv P M = .ok ⟨-1, P, FsHold.closed, [], [], M⟩ := by
  rw [exec]
  split
  · rfl
  · rename_i hcount
    rw [if_pos]
    · rfl
    · exact fun hmagic => h ⟨not_lt.mp hcount, hmagic⟩

theorem exec_taken (h : HeaderTaken rd elf₀) :
    exec L (some rd) elf₀ path argv P M = (do
      match ← setupkvm L M with
      | (none, M) => execBad L none true FsHold.closed.beginOp.namei.ilock P [] [] M
      | (some d, M) => do
        match ← loadSegments L rd d (headerOf rd elf₀).phnum (headerOf rd elf₀).phoff 1 0 M with
        | (none, loads, M) => execBad L (some d) true FsHold.closed.beginOp.namei.ilock P loads [] M
        | (some sz, loads, M) =>
          execStack L d (headerOf rd elf₀).entry FsHold.closed path argv P sz loads M) := by
  have hmagic : ¬ (readElf elf₀ (rd.read 0 0 52)).magic ≠ elfMagic := not_not.mpr h.2
  rw [exec, if_neg (not_lt.mpr h.1), if_neg hmagic]
  rfl

variable (hs : Sound L M P.pgdir) (hlen : ∀ arg ∈ argv, arg.length < 2 ^ 31)

include hs

variable (path argv) in
theorem exec_noDir (h : HeaderTaken rd elf₀) (hF : M.free.length < 65) :
    ∃ out, exec L (some rd) elf₀ path argv P M = .ok out ∧ out.loads = [] ∧ out.pushes = [] ∧
      Failed M P M.free out := by
  obtain ⟨M', hrun, hnil, hpage⟩ :=
    setupkvm_fails (L := L) hs.free_nodup (fun f hf => hs.takes_free hf) hF
  refine ⟨⟨-1, P, FsHold.closed, [], [], M'⟩, ?_, rfl, rfl, ⟨rfl, rfl, rfl, ?_, hpage⟩⟩
  · rw [exec_taken h, hrun]
    rfl
  · rw [hnil]
    exact zero_add _

include hlen

variable (ip path) in
theorem exec_ok (hfit : ∀ rd, ip = some rd → HeaderTaken rd elf₀ → 65 ≤ M.free.length →
      ExecFits rd (headerOf rd elf₀) argv M.free.length) :
    ∃ out lost, exec L ip elf₀ path argv P M = .ok out ∧ (∀ q ∈ out.loads, Confined M q.1 q.2) ∧
      lost.card = lostBy ip elf₀ M.free.length ∧
      (Failed M P lost out ∨ ∃ rd s s', ip = some rd ∧ HeaderTaken rd elf₀ ∧ 65 ≤ M.free.length ∧
        planLoad rd (headerOf rd elf₀) M.free.length = some s ∧ planStack s = some s' ∧
        Replaced L M P path argv (headerOf rd elf₀).entry s' lost out) ∧
      ((∀ rd s s', ip = some rd → HeaderTaken rd elf₀ → 65 ≤ M.free.length →
          planLoad rd (headerOf rd elf₀) M.free.length = some s → planStack s = some s' →
          ArgsFit (PushFits s') s' argv) → ∀ q ∈ out.pushes, InStack q.1 q.2) := by
  rcases ip with _ | rd
  · exact ⟨⟨-1, P, FsHold.closed, [], [], M⟩, 0, rfl, forall_mem_nil _, rfl,
      .inl ⟨rfl, rfl, rfl, add_zero _, fun _ _ => rfl⟩, fun _ => forall_mem_nil _⟩
  by_cases hhead : HeaderTaken rd elf₀
  swap
  · refine ⟨⟨-1, P, FsHold.closed, [], [], M⟩, 0, exec_refused hhead, forall_mem_nil _, ?_,
      .inl ⟨rfl, rfl, rfl, add_zero _, fun _ _ => rfl⟩, fun _ => forall_mem_nil _⟩
    exact (if_neg hhead).symm
  rcases Nat.lt_or_ge M.free.length 65 with hF | hF
  · obtain ⟨out, hout, hloads, hpushes, hfailed⟩ := exec_noDir path argv hs hhead hF
    refine ⟨out, M.free, hout, ?_, ?_, .inl hfailed, fun _ => ?_⟩
    · rw [hloads]
      exact forall_mem_nil _
    · rw [lostBy, if_pos hhead, if_pos hF]
      exact coe_card _
    · rw [hpushes]
      exact forall_mem_nil _
  obtain ⟨hseg, hargs⟩ := hfit rd rfl hhead hF
  obtain ⟨d, M₁, hsetup, hM₁⟩ := hs.setupkvm_loading hF
  obtain ⟨loads, M₂, lost, hload, hconf, hcard, hM₂⟩ := loadSegments_ok hM₁ hseg
  have hlost : lostBy (some rd) elf₀ M.free.length = leakExec rd (headerOf rd elf₀) M.free.length := by
    rw [lostBy, if_pos hhead, if_neg (not_lt.mpr hF)]
  rw [exec_taken hhead, hsetup, ok_bind]
  simp only
  have hload' : loadSegments L rd d (headerOf rd elf₀).phnum (headerOf rd elf₀).phoff 1 0 M₁ =
      .ok ((planLoad rd (headerOf rd elf₀) M.free.length).map Room.sz, loads, M₂) := hload
  rw [hload', ok_bind]
  change Built L d M M₂ lost (planLoad rd (headerOf rd elf₀) M.free.length) at hM₂
  rw [leakExec] at hlost
  rcases hplan : planLoad rd (headerOf rd elf₀) M.free.length with _ | s
  · rw [hplan] at hM₂ hlost
    obtain ⟨out, hout, hloads, hpushes, hfailed⟩ := execBad_freevm P loads true
      FsHold.closed.beginOp.namei.ilock [] hM₂ rfl
    refine ⟨out, lost, hout, hloads ▸ hconf, ?_, .inl hfailed, fun _ => ?_⟩
    · rw [hlost, hcard, Multiset.card_zero, zero_add]
      rfl
    · rw [hpushes]
      exact forall_mem_nil _
  · rw [hplan] at hM₂ hlost
    obtain ⟨out, lost', hout, hcard', hloads, hres, hpushes⟩ :=
      execStack_ok path (headerOf rd elf₀).entry loads hM₂ hs hlen
        fun s' hs' => hargs s s' hplan hs'
    refine ⟨out, lost', hout, hloads ▸ hconf, ?_, ?_, fun hf => ?_⟩
    · rw [hlost, hcard', hcard, Multiset.card_zero, zero_add]
      rfl
    · refine hres.imp_right ?_
      rintro ⟨s', hs', hrep⟩
      exact ⟨rd, s, s', rfl, hhead, hF, hplan, hs', hrep⟩
    · exact hpushes fun s' hs' => hf rd s s' rfl hhead hF hplan hs'

end Exec

end Mem
end Xv6.Vm
