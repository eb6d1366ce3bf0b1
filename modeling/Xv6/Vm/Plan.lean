import Xv6.Vm.Fill
import Xv6.Vm.Exec

/-!
# What an executable asks for

Whether a program can be loaded does not depend on what the memory holds.  It depends on what is
read from the file, and on the number of free pages.  A `Room` is what has to be known of a new
image while `exec` builds it, and `Room.grow` is what `allocuvm` makes of it.

* `getElem?_requests`, `length_requests` --- the requests of `allocuvm`, for a directory whose
  pages are mapped from address `0` on.
-/

namespace Xv6.Vm

open Function

/-! ## Rooms -/

/-- The pages that the first `m` pages of an image take, with the page tables for them. -/
def usedBy (m : ℕ) : ℕ := m + (m + (nptentries - 1)) / nptentries

/-- A new image: its size, the number of pages that are mapped, and the number of free pages. -/
structure Room where
  sz : ℕ
  mapped : ℕ
  free : ℕ
  deriving DecidableEq

namespace Room

/-- The pages below the size. -/
def pages (s : Room) : ℕ := pagesBetween 0 s.sz

/-- How many pages `allocuvm` asks for. -/
def need (s : Room) (new : ℕ) : ℕ := usedBy (pagesBetween 0 new) - usedBy s.pages

/-- `allocuvm`; `none` is `0`.  If the last request is for a page table and cannot be met, then
the size grows although the last page is not mapped. -/
def grow (s : Room) (new : ℕ) : Option Room :=
  if kernbase ≤ new then none
  else if new < s.sz then some s
  else if new = 0 then none
  else if s.need new ≤ s.free then
    some ⟨new, s.mapped + (pagesBetween 0 new - s.pages), s.free - s.need new⟩
  else if s.need new = s.free + 1 ∧ (pagesBetween 0 new - 1) % nptentries = 0 then
    some ⟨new, pagesBetween 0 new - 1, 0⟩
  else none

/-- The first request of `allocuvm` that cannot be met is for a page table. -/
def Leaks (s : Room) (new : ℕ) : Prop :=
  s.sz ≤ new ∧ new < kernbase ∧ ∃ v < pagesBetween 0 new, s.pages ≤ v ∧ v % nptentries = 0 ∧
    usedBy s.pages + s.free = usedBy v + 1

instance (s : Room) (new : ℕ) : Decidable (s.Leaks new) :=
  inferInstanceAs (Decidable (_ ∧ _ ∧ _))

/-- All pages below the size are mapped, or all but the last one, for which there was no page
table, and then there are no free pages. -/
structure Sane (s : Room) : Prop where
  le : s.sz ≤ kernbase
  whole : s.mapped = s.pages ∨ s.mapped + 1 = s.pages ∧ s.mapped % nptentries = 0 ∧ s.free = 0

/-- There is a page table for `j` if `m` pages are mapped. -/
def TableAt (m j : ℕ) : Prop := j * nptentries < m ∨ Mem.KernelTable j

instance (m j : ℕ) : Decidable (TableAt m j) := inferInstanceAs (Decidable (_ ∨ _))

end Room

/-! ## The requests of `allocuvm` -/

theorem usedBy_succ (m : ℕ) : usedBy (m + 1) = usedBy m + if m % nptentries = 0 then 2 else 1 := by
  split <;> simp only [usedBy, nptentries] at * <;> omega

theorem usedBy_mono {m n : ℕ} (h : m ≤ n) : usedBy m ≤ usedBy n := by
  simp only [usedBy, nptentries]
  omega

theorem usedBy_strictMono : StrictMono usedBy :=
  strictMono_nat_of_lt_succ fun m => by
    rw [usedBy_succ]
    split <;> omega

namespace Mem

/-- Below page `v`, and only there, pages have page tables. -/
def TablesBelow (has : ℕ → Bool) (v n : ℕ) : Prop :=
  ∀ u, v ≤ u → u < v + n → (has (u / nptentries) = true ↔ u / nptentries * nptentries < v)

section Requests

variable {has : ℕ → Bool} {v n k : ℕ}

theorem TablesBelow.head (h : TablesBelow has v (n + 1)) :
    has (v / nptentries) = true ↔ v % nptentries ≠ 0 := by
  rw [h v le_rfl (by omega)]
  simp only [nptentries]
  omega

theorem TablesBelow.tail (h : TablesBelow has v (n + 1)) :
    TablesBelow (update has (v / nptentries) true) (v + 1) n := by
  intro u hu hu'
  by_cases heq : u / nptentries = v / nptentries
  · rw [heq, update_self]
    simp only [nptentries, true_iff]
    omega
  · rw [update_of_ne heq, h u (by omega) (by omega)]
    simp only [nptentries] at heq ⊢
    omega

theorem requests_succ (h : TablesBelow has v (n + 1)) :
    requests has (n + 1) v = (.page :: if v % nptentries = 0 then [.table] else []) ++
      requests (update has (v / nptentries) true) n (v + 1) := by
  rw [requests]
  by_cases hv : v % nptentries = 0
  · rw [if_pos hv, if_neg fun hh => h.head.mp hh hv]
    rfl
  · rw [if_neg hv, if_pos (h.head.mpr hv)]
    rfl

theorem length_requests (h : TablesBelow has v n) :
    usedBy v + (requests has n v).length = usedBy (v + n) := by
  induction n generalizing has v with
  | zero => rfl
  | succ n ih =>
    have hrest := ih h.tail
    rw [usedBy_succ] at hrest
    rw [requests_succ h, List.length_append, show v + (n + 1) = v + 1 + n by omega, ← hrest]
    split <;> simp only [List.length_cons, List.length_nil] <;> omega

theorem getElem?_requests (h : TablesBelow has v n) :
    (requests has n v)[k]? = some .table ↔
      ∃ u < v + n, v ≤ u ∧ u % nptentries = 0 ∧ usedBy v + k = usedBy u + 1 := by
  induction n generalizing has v k with
  | zero =>
    rw [requests, List.getElem?_nil]
    refine iff_of_false (by simp) ?_
    rintro ⟨u, hu, hv, -⟩
    omega
  | succ n ih =>
    have hmono := usedBy_mono (Nat.le_succ v)
    -- the requests for page `v` are answered here, and the others by the induction
    have hsplit : (∃ u < v + (n + 1), v ≤ u ∧ u % nptentries = 0 ∧ usedBy v + k = usedBy u + 1) ↔
        (v % nptentries = 0 ∧ k = 1) ∨
          ∃ u < v + 1 + n, v + 1 ≤ u ∧ u % nptentries = 0 ∧ usedBy v + k = usedBy u + 1 := by
      constructor
      · rintro ⟨u, hu, hv, hmod, hk⟩
        rcases eq_or_lt_of_le hv with rfl | hlt
        · exact .inl ⟨hmod, by omega⟩
        · exact .inr ⟨u, by omega, hlt, hmod, hk⟩
      · rintro (⟨hmod, rfl⟩ | ⟨u, hu, hv, hmod, hk⟩)
        · exact ⟨v, by omega, le_rfl, hmod, rfl⟩
        · exact ⟨u, by omega, by omega, hmod, hk⟩
    rw [requests_succ h, hsplit]
    have hsucc := usedBy_succ v
    rcases Nat.lt_or_ge k (if v % nptentries = 0 then 2 else 1) with hk | hk
    · have hlater : ¬ ∃ u < v + 1 + n, v + 1 ≤ u ∧ u % nptentries = 0 ∧
          usedBy v + k = usedBy u + 1 := by
        rintro ⟨u, -, hu, -, he⟩
        have := usedBy_mono hu
        omega
      rw [or_iff_left hlater]
      by_cases hv : v % nptentries = 0
      · rw [if_pos hv] at hk ⊢
        rcases k with _ | k
        · exact iff_of_false (by simp) (by omega)
        · obtain rfl : k = 0 := by omega
          exact iff_of_true rfl ⟨hv, rfl⟩
      · rw [if_neg hv] at hk ⊢
        obtain rfl : k = 0 := by omega
        exact iff_of_false (by simp) (by omega)
    · have hlen : (Request.page :: if v % nptentries = 0 then [Request.table] else []).length =
          if v % nptentries = 0 then 2 else 1 := by
        split <;> rfl
      have hhead : ¬ (v % nptentries = 0 ∧ k = 1) := by
        rintro ⟨hv, rfl⟩
        rw [if_pos hv] at hk
        omega
      rw [or_iff_right hhead, List.getElem?_append_right (by rw [hlen]; exact hk), ih h.tail, hlen, hsucc]
      refine exists_congr fun u => and_congr_right fun _ => and_congr_right fun _ =>
        and_congr_right fun _ => ?_
      omega

end Requests

end Mem

/-! ## Segments -/

/-- How many bytes `loaduvm` asks for at offset `i` of the segment. -/
def chunk (filesz i : ℕ) : ℕ := if filesz - i < pgsize then filesz - i else pgsize

/-- Whether the loop of `loaduvm` comes to its end, and the number of calls of `readi` then. -/
def segRead (rd : Reader) (off filesz : ℕ) : ℕ → ℕ → ℕ → Bool × ℕ
  | 0, _, k => (true, k)
  | n + 1, i, k =>
    match rd.read k ((off + i) % 2 ^ 32) (chunk filesz i) with
    | none => (false, k + 1)
    | some bs =>
      if bs.length = chunk filesz i then segRead rd off filesz n (i + pgsize) (k + 1)
      else (false, k + 1)

/-- Each page that the loop of `loaduvm` comes to is one of the `m` pages that are mapped, or at
least has a page table and nothing is read for it. -/
def SegFits (rd : Reader) (m addr off filesz : ℕ) : ℕ → ℕ → ℕ → Prop
  | 0, _, _ => True
  | n + 1, i, k =>
    let page := (addr + i) % 2 ^ 32 / pgsize
    match rd.read k ((off + i) % 2 ^ 32) (chunk filesz i) with
    | none => Room.TableAt m (page / nptentries)
    | some bs =>
      (page < m ∨ bs = [] ∧ Room.TableAt m (page / nptentries)) ∧
      (bs.length = chunk filesz i → SegFits rd m addr off filesz n (i + pgsize) (k + 1))

/-- What becomes of the room when a program header has been read; `none` is `goto bad`. -/
def planSegment (rd : Reader) (ph : Proghdr) (k : ℕ) (s : Room) : Option (ℕ × Room) :=
  if ph.type ≠ elfProgLoad then some (k, s)
  else if ph.memsz < ph.filesz then none
  else
    match s.grow ((ph.vaddr + ph.memsz) % 2 ^ 32) with
    | none => none
    | some s =>
      let (done, k) := segRead rd ph.off ph.filesz (pagesBetween 0 ph.filesz) 0 k
      if done then some (k, s) else none

/-- The segment, if it comes to be loaded, starts at a page and goes to pages that are mapped. -/
def SegmentFits (rd : Reader) (ph : Proghdr) (k : ℕ) (s : Room) : Prop :=
  ph.type = elfProgLoad → ph.filesz ≤ ph.memsz →
    ∀ s', s.grow ((ph.vaddr + ph.memsz) % 2 ^ 32) = some s' →
      ph.vaddr % pgsize = 0 ∧
        SegFits rd s'.mapped ph.vaddr ph.off ph.filesz (pagesBetween 0 ph.filesz) 0 k

/-- The program header that is read, if it is read in full. -/
def readProghdr (rd : Reader) (k off : ℕ) : Option Proghdr :=
  match rd.read k off 32 with
  | none => none
  | some bs => if bs.length = 32 then some ((Bytes.zero : Proghdr).copy 0 bs) else none

/-- What becomes of the room in the loop over the program headers. -/
def planSegments (rd : Reader) : ℕ → ℕ → ℕ → Room → Option Room
  | 0, _, _, s => some s
  | n + 1, off, k, s =>
    match readProghdr rd k off with
    | none => none
    | some ph =>
      match planSegment rd ph (k + 1) s with
      | none => none
      | some (k, s) => planSegments rd n ((off + 32) % 2 ^ 32) k s

/-- All segments that come to be loaded fit. -/
def SegmentsFit (rd : Reader) : ℕ → ℕ → ℕ → Room → Prop
  | 0, _, _, _ => True
  | n + 1, off, k, s =>
    ∀ ph, readProghdr rd k off = some ph →
      SegmentFits rd ph (k + 1) s ∧
        ∀ k' s', planSegment rd ph (k + 1) s = some (k', s') →
          SegmentsFit rd n ((off + 32) % 2 ^ 32) k' s'

theorem segmentsFit_one {rd : Reader} {ph : Proghdr} {off k : ℕ} {s : Room}
    (hph : readProghdr rd k off = some ph) (h : SegmentFits rd ph (k + 1) s) :
    SegmentsFit rd 1 off k s := by
  intro ph' hph'
  obtain rfl := Option.some.inj (hph'.symm.trans hph)
  exact ⟨h, fun _ _ _ => trivial⟩

/-- The pages that are lost when a segment is loaded. -/
def leakSegment (ph : Proghdr) (s : Room) : ℕ :=
  if ph.type = elfProgLoad ∧ ph.filesz ≤ ph.memsz ∧ s.Leaks ((ph.vaddr + ph.memsz) % 2 ^ 32) then 1
  else 0

/-- The pages that are lost in the loop over the program headers. -/
def leakSegments (rd : Reader) : ℕ → ℕ → ℕ → Room → ℕ
  | 0, _, _, _ => 0
  | n + 1, off, k, s =>
    match readProghdr rd k off with
    | none => 0
    | some ph =>
      leakSegment ph s +
        match planSegment rd ph (k + 1) s with
        | none => 0
        | some (k, s) => leakSegments rd n ((off + 32) % 2 ^ 32) k s

/-! ## The stack -/

/-- The size after the rounding that precedes the allocation of the stack. -/
def Room.roundup (s : Room) : Room := { s with sz := pgroundup s.sz }

/-- What becomes of the room when the stack is allocated. -/
def planStack (s : Room) : Option Room :=
  s.roundup.grow ((pgroundup s.sz + 2 * pgsize) % 2 ^ 32)

/-- The address for a string of `n` bytes with its terminator. -/
def pushAddr (sp n : ℕ) : ℕ := (sp + 2 ^ 32 - n) % 2 ^ 32 / 4 * 4

/-- `copyout` starts at a page that has a page table. -/
def PushWalks (s : Room) (va : ℕ) : Prop := Room.TableAt s.mapped (va / pgsize / nptentries)

instance (s : Room) : DecidablePred (PushWalks s) := fun _ =>
  inferInstanceAs (Decidable (Room.TableAt _ _))

/-- It does not start below the guard page, either. -/
def PushFits (s : Room) (va : ℕ) : Prop := s.pages ≤ va / pgsize + 2 ∧ PushWalks s va

instance (s : Room) : DecidablePred (PushFits s) := fun _ => inferInstanceAs (Decidable (_ ∧ _))

/-- All strings that come to be pushed are pushed to an address that `fits`; `last` is about the
number of the strings and the stack pointer when all of them have been pushed. -/
def StringsFit (fits : ℕ → Prop) (last : ℕ → ℕ → Prop) (s : Room) :
    List (List UInt8) → ℕ → ℕ → Prop
  | [], argc, sp => last argc sp
  | arg :: argv, argc, sp =>
    argc < maxarg →
      fits (pushAddr sp (arg.length + 1)) ∧
        (pushAddr sp (arg.length + 1) / pgsize + 1 = s.pages →
          StringsFit fits last s argv (argc + 1) (pushAddr sp (arg.length + 1)))

instance StringsFit.decidable {fits : ℕ → Prop} {last : ℕ → ℕ → Prop} [DecidablePred fits]
    [∀ argc sp, Decidable (last argc sp)] (s : Room) :
    ∀ argv argc sp, Decidable (StringsFit fits last s argv argc sp)
  | [], argc, sp => inferInstanceAs (Decidable (last argc sp))
  | _ :: argv, argc, _ =>
    have := @StringsFit.decidable fits last _ _ s argv (argc + 1)
    inferInstanceAs (Decidable (_ → _ ∧ (_ → _)))

/-- All that comes to be pushed is pushed to an address that `fits`. -/
def ArgsFit (fits : ℕ → Prop) (s : Room) (argv : List (List UInt8)) : Prop :=
  StringsFit fits (fun argc sp => fits (pushAddr sp ((3 + argc + 1) * 4))) s argv 0 s.sz

instance {fits : ℕ → Prop} [DecidablePred fits] (s : Room) (argv : List (List UInt8)) :
    Decidable (ArgsFit fits s argv) :=
  inferInstanceAs (Decidable (StringsFit _ _ _ _ _ _))

end Xv6.Vm
