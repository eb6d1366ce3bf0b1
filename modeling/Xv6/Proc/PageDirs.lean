import Xv6.Proc.Descent
import Xv6.Proc.Image

/-!
# Who owns a page directory

A page directory has one owner: a process, from the time `fork` has copied an image for it
until `wait` frees it; or a thread in `exec`, which owns the new page directory until it
stores it in the process, and the old one after that.  `HasDir` says who owns what, and
`Spaces` is the invariant: what is owned has not been freed and has one owner, a thread runs
on the page directory of its process, or on the one that it has just replaced itself, and
whoever is between reading `proc->pgdir` and freeing it is alone in its process.

The last of these is not what the code sees to; `Spaces.of_done` has it as a condition on the
step that enters the commit.  `Served` collects what is known about an operation that has
been answered, and `Served.owners` says where owners come from.
-/

namespace Xv6.Proc

open Function Transition Kernel

variable {ncpu : ℕ} {S S' : Kernel ncpu} {G : Slot → Ctx} {c : Fin ncpu} {s u : Slot}
  {ch : Choice} {e : KOp} {k : e.Ans → KProg Unit} {r : e.Ans}

/-! ## The record of page directories in `exec` -/

/-- How far every thread has come in `exec`. -/
abbrev Images := Slot → Image

/-- The record after thread `s` has been answered; a thread that it starts has nothing. -/
def handOver (V : Images) (s : Slot) (e : KOp) (r : e.Ans) : Images := fun u =>
  if e.starts s = some u then .none else if u = s then e.imageNext r (V s) else V u

section handOver

variable {V : Images} {e : KOp} {r : e.Ans}

theorem handOver_starts (h : e.starts s = some u) : handOver V s e r u = .none := if_pos h

theorem handOver_self (h : e.starts s ≠ some s) : handOver V s e r s = e.imageNext r (V s) := by
  rw [handOver, if_neg h, if_pos rfl]

theorem handOver_ne (hu : u ≠ s) (h : e.starts s ≠ some u) : handOver V s e r u = V u := by
  rw [handOver, if_neg h, if_neg hu]

end handOver

namespace Image

/-- The page directory that the thread owns. -/
def held : Image → Option ℕ
  | .none => Option.none
  | .built d => some d
  | .found d _ => some d
  | .swapped _ old => some old
  | .switched _ old => some old

/-- The thread has a new page directory and nothing else. -/
def isBuilt : Image → Bool
  | .built _ => true
  | _ => false

/-- The thread is between reading `proc->pgdir` and freeing it. -/
def committing : Image → Bool
  | .found _ _ | .swapped _ _ | .switched _ _ => true
  | _ => false

theorem not_committing {v : Image} (h : v = .none ∨ ∃ d, v = .built d) : v.committing = false := by
  obtain rfl | ⟨d, rfl⟩ := h <;> rfl

end Image

theorem held_next {v : Image} {d : ℕ} (h : (e.imageNext r v).held = some d) (hsetup : e ≠ .setupkvm)
    (hset : ∀ d, e ≠ .setPgdir d) : v.held = some d := by
  by_cases he : e.plain = true
  · rwa [imageNext_of_plain he] at h
  cases e with
  | setupkvm => exact absurd rfl hsetup
  | setPgdir d => exact absurd rfl (hset d)
  | pgdir | switchuvm => cases v <;> exact h
  | freevm => cases h
  | _ => exact absurd rfl he

theorem op_of_committing {v : Image} (hpre : e.imagePre v) (hv : v.committing = true) :
    (∃ d, e = .setPgdir d) ∨ e = .switchuvm ∨ ∃ d, e = .freevm d := by
  have hnot : ¬(v = .none ∨ ∃ d, v = .built d) := fun h => by
    rw [Image.not_committing h] at hv
    cases hv
  by_cases he : e.plain = true
  · exact absurd ((imagePre_of_plain he).mp hpre) hnot
  cases e with
  | setupkvm => exact absurd (.inl hpre) hnot
  | pgdir => exact absurd hpre hnot
  | setPgdir d => exact .inl ⟨d, rfl⟩
  | switchuvm => exact .inr (.inl rfl)
  | freevm d => exact .inr (.inr ⟨d, rfl⟩)
  | _ => exact absurd rfl he

theorem committing_next {v : Image} (h : (e.imageNext r v).committing = true) :
    v.committing = true ∨ e = .pgdir ∧ v.isBuilt = true := by
  by_cases he : e.plain = true
  · exact .inl (by rwa [imageNext_of_plain he] at h)
  cases e with
  | pgdir =>
    cases v with
    | built d => exact .inr ⟨rfl, rfl⟩
    | _ => exact .inl h
  | setupkvm =>
    cases r with
    | none => exact .inl h
    | some d => cases h
  | setPgdir | switchuvm => cases v <;> exact .inl h
  | freevm => cases h
  | _ => exact absurd rfl he

/-! ## Who owns a page directory -/

/-- Neither `UNUSED` nor `EMBRYO`. -/
@[simp] def RunState.settled : RunState → Bool
  | .unused | .embryo => false
  | _ => true

namespace Stage

/-- The process has its kernel stack. -/
@[simp] def stacked : Stage → Bool
  | .found => false
  | _ => true

/-- The process has its page directory. -/
@[simp] def imaged : Stage → Bool
  | .image | .child => true
  | _ => false

end Stage

/-- The process has been set up, or is being set up and has come to a stage that passes `f`. -/
def SetUp (f : Stage → Bool) (S : Kernel ncpu) (G : Slot → Ctx) (p : PId) : Prop :=
  (S.proc p).state.settled = true ∨ ∃ u st, (S.thread u).state.active = true ∧
    (G u).np = some (p, st) ∧ f st = true

/-- Processes and threads in `exec` own page directories. -/
def HasDir (S : Kernel ncpu) (G : Slot → Ctx) (V : Images) : PId ⊕ Slot → ℕ → Prop
  | .inl p, d => SetUp Stage.imaged S G p ∧ (S.proc p).pgdir = d
  | .inr u, d => (S.thread u).state.active = true ∧ (V u).held = some d

/-- **The invariant of page directories.** -/
structure Spaces (S : Kernel ncpu) (G : Slot → Ctx) (V : Images) : Prop where
  code : ∀ {u}, (S.thread u).state.active = true →
    (S.code u).Safe imageRules (fun _ v => v = .none) (V u)
  /-- What is owned has not been freed. -/
  dir : ∀ {o d}, HasDir S G V o d → S.page d = .vm d
  inj : ∀ {o o' d}, HasDir S G V o d → HasDir S G V o' d → o = o'
  stack : ∀ {p}, SetUp Stage.stacked S G p →
    ∃ n, (S.proc p).kstack = n * kstacksize ∧ S.page n = .stack p
  /-- A thread runs on the page directory of its process, or on the one that it has just
  replaced. -/
  cr3 : ∀ {c u}, (S.cpu c).thread = some u →
    (S.cpu c).cr3 = (S.proc u.1).pgdir ∨ ∃ d, V u = .swapped d (S.cpu c).cr3
  alone : ∀ {u}, (S.thread u).state.active = true → (V u).committing = true →
    S.hasOthers u = false
  old : ∀ {u d o}, (S.thread u).state.active = true → V u = .found d o → o = (S.proc u.1).pgdir

theorem Inv.not_setUp (h : Inv S G) {f : Stage → Bool} {p : PId}
    (hp : (S.proc p).state = .unused) : ¬SetUp f S G p := by
  rintro (hs | ⟨u, st, hu, hg, -⟩)
  · rw [hp] at hs
    cases hs
  · cases hp.symm.trans ((h.owns hu).embryo hg)

theorem next_np_inv {g : Ctx} (hpre : e.pre g) (r : e.Ans) {q : PId} {st : Stage}
    (hn : (e.next r g).np = some (q, st)) :
    g.np = some (q, st) ∨ st = .found ∨ e = .stackAlloc q ∧ st = .stack ∨
      st = .init ∧ g.np = some (q, .stack) ∨ e = .copyuvm q ∧ g.np = some (q, .init) ∨
      st = .child ∧ g.np = some (q, .image) := by
  by_cases hq : e.quiet = true
  · by_cases hcopy : ∃ q, e = .copyuvm q
    · obtain ⟨q', rfl⟩ := hcopy
      cases hn
      exact .inr (.inr (.inr (.inr (.inl ⟨rfl, hpre⟩))))
    · rw [(next_owned hq (fun q hq => hcopy ⟨q, hq⟩) r g).1] at hn
      exact .inl hn
  cases e with
  | procAlloc =>
    cases r with
    | none => cases hn
    | some p =>
      cases hn
      exact .inr (.inl rfl)
  | stackAlloc p =>
    cases r with
    | false => cases hn
    | true =>
      cases hn
      exact .inr (.inr (.inl ⟨rfl, rfl⟩))
  | procInit p =>
    cases hn
    exact .inr (.inr (.inr (.inl ⟨rfl, hpre⟩)))
  | forkThread p =>
    cases hn
    exact .inr (.inr (.inr (.inr (.inr ⟨rfl, hpre⟩))))
  | forkFail | forkDone => cases hn
  | threadAlloc | threadInit | threadReady | threadExit | exitDone | wait => exact .inl hn
  | _ => exact absurd rfl hq

/-! ## Operations -/

/-- Thread `s` has performed operation `e`, and was answered `r`. -/
structure Served (S S' : Kernel ncpu) (G : Slot → Ctx) (V : Images) (c : Fin ncpu) (s : Slot)
    (e : KOp) (r : e.Ans) : Prop where
  inv : Inv S G
  spaces : Spaces S G V
  cpu : (S.cpu c).thread = some s
  pre : e.pre (G s)
  image : e.imagePre (V s)
  perf : ∃ ch, S.perform c s ch e = some (.done r S')
  fate : ∀ z, Fate S S' s e z
  kept : ∀ {u}, e.starts s ≠ some u → Kept S S' u
  turn : ∀ {u : Slot}, (S.proc u.1).isReady = true → Turn S S' s e u
  unused : ∀ {f p}, (S'.proc p).state = .unused → ¬SetUp f S' (learn G s e r) p

namespace Served

variable {V : Images} {e : KOp} {r : e.Ans} {p : PId} {o : PId ⊕ Slot} {d : ℕ}

section

variable (h : Served S S' G V c s e r)
include h

theorem active : (S.thread s).state.active = true :=
  h.inv.running_active h.cpu

theorem not_starts (hu : (S.thread u).state.active = true) : e.starts s ≠ some u :=
  fun hst => Bool.false_ne_true ((h.inv.starts_not_active h.cpu h.pre hst).symm.trans hu)

theorem marks : Marks e S S' := by
  obtain ⟨ch, hperf⟩ := h.perf
  exact marks_of_done hperf

theorem active_of_held (hu : (S'.thread u).state.active = true) (hst : e.starts s ≠ some u) :
    (S.thread u).state.active = true :=
  (h.kept hst).active_iff.mp hu

theorem setUp_or {f : Stage → Bool} (hf : f .child = true) (hp : SetUp f S' (learn G s e r) p) :
    SetUp f S G p ∨ ∃ st, (e.next r (G s)).np = some (p, st) ∧ f st = true := by
  obtain hset | ⟨u, st, hu, hg, hst⟩ := hp
  · cases h.fate p with
    | same hs _ => exact .inl (.inl (hs ▸ hset))
    | launched he _ _ _ =>
      subst he
      exact .inl (.inr ⟨s, .child, h.active, h.pre, hf⟩)
    | taken _ _ hs' | adopted _ _ _ hs' | freed _ _ hs' =>
      rw [hs'] at hset
      cases hset
  · by_cases hstart : e.starts s = some u
    · rw [learn_starts G r hstart] at hg
      cases hg
    · by_cases hus : u = s
      · subst hus
        rw [learn_self G r hstart] at hg
        exact .inr ⟨st, hg, hst⟩
      · rw [learn_ne G r hus hstart] at hg
        exact .inl (.inr ⟨u, st, h.active_of_held hu hstart, hg, hst⟩)

theorem imaged (hcopy : e ≠ .copyuvm p) (hp : SetUp Stage.imaged S' (learn G s e r) p) :
    SetUp Stage.imaged S G p := by
  obtain hp | ⟨st, hn, hst⟩ := h.setUp_or rfl hp
  · exact hp
  · obtain hg | rfl | ⟨-, rfl⟩ | ⟨rfl, -⟩ | ⟨he, -⟩ | ⟨-, hg⟩ := next_np_inv h.pre r hn
    · exact .inr ⟨s, st, h.active, hg, hst⟩
    · cases hst
    · cases hst
    · cases hst
    · exact absurd he hcopy
    · exact .inr ⟨s, .image, h.active, hg, rfl⟩

theorem stacked (halloc : e ≠ .stackAlloc p) (hp : SetUp Stage.stacked S' (learn G s e r) p) :
    SetUp Stage.stacked S G p := by
  obtain hp | ⟨st, hn, hst⟩ := h.setUp_or rfl hp
  · exact hp
  · obtain hg | rfl | ⟨he, -⟩ | ⟨-, hg⟩ | ⟨-, hg⟩ | ⟨-, hg⟩ := next_np_inv h.pre r hn
    · exact .inr ⟨s, st, h.active, hg, hst⟩
    · cases hst
    · exact absurd he halloc
    · exact .inr ⟨s, .stack, h.active, hg, rfl⟩
    · exact .inr ⟨s, .init, h.active, hg, rfl⟩
    · exact .inr ⟨s, .image, h.active, hg, rfl⟩

theorem held (hsetup : e = .setupkvm → u ≠ s) (hset : ∀ d, e = .setPgdir d → u ≠ s)
    (hu : (S'.thread u).state.active = true) (hv : (handOver V s e r u).held = some d) :
    (S.thread u).state.active = true ∧ (V u).held = some d := by
  by_cases hstart : e.starts s = some u
  · rw [handOver_starts hstart] at hv
    cases hv
  · refine ⟨h.active_of_held hu hstart, ?_⟩
    by_cases hus : u = s
    · subst hus
      rw [handOver_self hstart] at hv
      exact held_next hv (fun he => hsetup he rfl) fun d he => hset d he rfl
    · rwa [handOver_ne hus hstart] at hv

theorem page_dir {d' : ℕ} (ho : HasDir S G V o d)
    (ho' : HasDir S' (learn G s e r) (handOver V s e r) o d') : S'.page d = .vm d := by
  have hdir := h.spaces.dir ho
  obtain ⟨ch, hperf⟩ := h.perf
  obtain hsame | hch := page_of_done hperf d
  · exact hsame.trans hdir
  cases hch with
  | allocated hn | pipe hn => cases hdir.symm.trans hn
  | shrunk d₁ hn hne =>
    cases hdir.symm.trans hn
    exact absurd rfl hne
  | freed d₁ he hn =>
    subst he
    cases hdir.symm.trans hn
    have hown : HasDir S G V (.inr s) d := by
      refine ⟨h.active, ?_⟩
      obtain hv | ⟨d₂, hv⟩ := h.image <;> rw [hv] <;> rfl
    cases h.spaces.inj ho hown
    have hv := ho'.2
    rw [handOver_self (h.not_starts h.active)] at hv
    cases hv
  | failed q he hq hn =>
    subst he
    obtain ⟨n, hk, hpage⟩ := h.spaces.stack (.inr ⟨s, .init, h.active, h.pre, rfl⟩)
    rw [hn] at hk
    rw [Nat.eq_of_mul_eq_mul_right (by decide) hk, hpage] at hdir
    cases hdir
  | reaped z hz hz' hn =>
    have hsettled : SetUp Stage.imaged S G z := .inl (by rw [hz]; rfl)
    obtain hn | hn := hn
    · have hd : d = (S.proc z).pgdir := by
        cases hdir.symm.trans hn
        rfl
      subst hd
      have hz : HasDir S G V (.inl z) (S.proc z).pgdir := ⟨hsettled, rfl⟩
      cases h.spaces.inj ho hz
      exact absurd ho'.1 (h.unused hz')
    · obtain ⟨n, hk, hpage⟩ := h.spaces.stack (p := z) (.inl (by rw [hz]; rfl))
      rw [hn] at hk
      rw [Nat.eq_of_mul_eq_mul_right (by decide) hk, hpage] at hdir
      cases hdir

theorem page_stack {n : ℕ} (hn : S.page n = .stack p)
    (hp : SetUp Stage.stacked S' (learn G s e r) p) : S'.page n = .stack p := by
  obtain ⟨ch, hperf⟩ := h.perf
  -- two stacks in one page belong to one process
  have hsame : ∀ {q}, SetUp Stage.stacked S G q → (S.proc q).kstack = n * kstacksize → q = p := by
    intro q hq hkq
    obtain ⟨m, hkm, hm⟩ := h.spaces.stack hq
    rw [hkq] at hkm
    rw [← Nat.eq_of_mul_eq_mul_right (by decide) hkm, hn] at hm
    cases hm
    rfl
  obtain heq | hch := page_of_done hperf n
  · exact heq.trans hn
  cases hch with
  | allocated h' | pipe h' | shrunk _ h' | freed _ _ h' => cases hn.symm.trans h'
  | failed q he hq hkq =>
    subst he
    rw [hsame (.inr ⟨s, .init, h.active, h.pre, rfl⟩) hkq] at hq
    exact absurd hp (h.unused hq)
  | reaped z hz hz' hkz =>
    obtain h' | hkz := hkz
    · cases hn.symm.trans h'
    · rw [hsame (.inl (by rw [hz]; rfl)) hkz] at hz'
      exact absurd hp (h.unused hz')

theorem pgdir_eq (hcopy : e ≠ .copyuvm p) (hset : ∀ d, e = .setPgdir d → p ≠ s.1) :
    (S'.proc p).pgdir = (S.proc p).pgdir := by
  by_cases he : e.keepsPgdirs = true
  · exact h.marks.pgdir he p
  obtain ⟨ch, hperf⟩ := h.perf
  cases e with
  | copyuvm q =>
    have hpq : p ≠ q := fun hpq => hcopy (by rw [hpq])
    obtain ⟨-, rfl⟩ | ⟨-, page, rfl, -⟩ := allocOr_done hperf <;> simp [hpq]
  | setPgdir d =>
    cases hperf
    simp [hset d rfl]
  | _ => exact absurd rfl he

theorem ne_copyuvm (hu : (S.thread u).state.active = true) : e ≠ .copyuvm u.1 := by
  rintro rfl
  have hready := h.inv.ready (RunState.live_of_active hu)
  have hembryo := (h.inv.owns h.active).embryo h.pre
  simp [Entry.isReady, hembryo] at hready

theorem hasOthers_eq (hu : (S.thread u).state.active = true) (ha : S.hasOthers u = false)
    (halloc : e = .threadAlloc → u ≠ s) : S'.hasOthers u = false := by
  have hnot : ∀ t, t ≠ u.2 → (S.thread (u.1, t)).state.live ≠ true := by
    intro t ht hlive
    exact Bool.false_ne_true (ha.symm.trans (hasOthers_iff.mpr ⟨t, ht, hlive⟩))
  refine Bool.eq_false_iff.mpr fun hothers => ?_
  obtain ⟨t, ht, hlive⟩ := hasOthers_iff.mp hothers
  refine hnot t ht ?_
  have hready : (S.proc u.1).isReady = true := h.inv.ready (RunState.live_of_active hu)
  cases h.turn (u := (u.1, t)) hready with
  | same hs => rwa [hs] at hlive
  | woken hs _ => simp [hs]
  | started _ _ hs _ => simp [hs]
  | taken he hus _ _ _ =>
    -- the thread that creates another is there, too
    have hne : s.2 ≠ u.2 := fun h2 => halloc he (Prod.ext hus h2.symm)
    refine absurd (RunState.live_of_active h.active) ?_
    have := hnot s.2 hne
    rwa [show (u.1, s.2) = s from Prod.ext hus rfl] at this

theorem ne_of_committing (hu : (S.thread u).state.active = true) (hv : (V u).committing = true)
    (hus : u ≠ s) : u.1 ≠ s.1 := by
  intro h1
  have hne : s.2 ≠ u.2 := fun h2 => hus (Prod.ext h1 h2.symm)
  refine Bool.false_ne_true ((h.spaces.alone hu hv).symm.trans (hasOthers_iff.mpr ⟨s.2, hne, ?_⟩))
  rw [show (u.1, s.2) = s from Prod.ext h1 rfl]
  exact RunState.live_of_active h.active

theorem owner_proc (hcopy : e ≠ .copyuvm p) (hset : ∀ d, e = .setPgdir d → p ≠ s.1)
    (ho : HasDir S' (learn G s e r) (handOver V s e r) (.inl p) d) : HasDir S G V (.inl p) d :=
  ⟨h.imaged hcopy ho.1, (h.pgdir_eq hcopy hset).symm.trans ho.2⟩

theorem owner_thread (hsetup : e = .setupkvm → u ≠ s) (hset : ∀ d, e = .setPgdir d → u ≠ s)
    (ho : HasDir S' (learn G s e r) (handOver V s e r) (.inr u) d) : HasDir S G V (.inr u) d :=
  h.held hsetup hset ho.1 ho.2

end

theorem owners_copyuvm {q : PId} {r : Bool} (h : Served S S' G V c s (.copyuvm q) r)
    (ho : HasDir S' (learn G s (.copyuvm q) r) (handOver V s (.copyuvm q) r) o d) :
    S'.page d = .vm d ∧ (HasDir S G V o d ∨ S.page d = .free ∧ o = .inl q) := by
  have hold : ∀ {o}, HasDir S G V o d →
      HasDir S' (learn G s (.copyuvm q) r) (handOver V s (.copyuvm q) r) o d →
      S'.page d = .vm d ∧ (HasDir S G V o d ∨ S.page d = .free ∧ o = .inl q) :=
    fun ho ho' => ⟨h.page_dir ho ho', .inl ho⟩
  cases o with
  | inr u => exact hold (h.owner_thread (by simp) (by simp) ho) ho
  | inl p =>
    by_cases hpq : p = q
    · subst hpq
      obtain ⟨ch, hperf⟩ := h.perf
      obtain ⟨rfl, rfl⟩ | ⟨rfl, page, rfl, hk⟩ := allocOr_done hperf
      · -- a child without an image owns none
        exfalso
        have hown := h.inv.owns h.active
        obtain (hs | ⟨u, st, hu, hg, hst⟩) | ⟨st, hn, hst⟩ := h.setUp_or rfl ho.1
        · rw [hown.embryo h.pre] at hs
          cases hs
        · obtain rfl := h.inv.npInj hu h.active hg h.pre
          cases hg.symm.trans h.pre
          cases hst
        · cases hn
          cases hst
      · obtain rfl : ch.pages.headD 0 = d := by simpa using ho.2
        simp only [kalloc, Option.ite_none_right_eq_some] at hk
        obtain ⟨⟨-, hfree⟩, hk⟩ := hk
        cases hk
        have hmem : ch.pages.headD 0 ∈ ch.pages := by
          cases hp : ch.pages with
          | nil => rw [perform, hp] at hperf; cases hperf
          | cons => simp
        exact ⟨if_pos hmem, .inr ⟨hfree _ hmem, rfl⟩⟩
    · exact hold (h.owner_proc (by simpa using Ne.symm hpq) (by simp) ho) ho

theorem owners_setupkvm {r : Option ℕ} (h : Served S S' G V c s .setupkvm r)
    (ho : HasDir S' (learn G s .setupkvm r) (handOver V s .setupkvm r) o d) :
    S'.page d = .vm d ∧ (HasDir S G V o d ∨ S.page d = .free ∧ o = .inr s) := by
  have hold : ∀ {o}, HasDir S G V o d →
      HasDir S' (learn G s .setupkvm r) (handOver V s .setupkvm r) o d →
      S'.page d = .vm d ∧ (HasDir S G V o d ∨ S.page d = .free ∧ o = .inr s) :=
    fun ho ho' => ⟨h.page_dir ho ho', .inl ho⟩
  cases o with
  | inl p => exact hold (h.owner_proc (by simp) (by simp) ho) ho
  | inr u =>
    by_cases hus : u = s
    · subst hus
      obtain ⟨-, hv⟩ := ho
      rw [handOver_self (h.not_starts h.active)] at hv
      obtain ⟨ch, hperf⟩ := h.perf
      simp only [perform] at hperf
      split at hperf
      · cases hperf
        rw [show V u = .none from h.image] at hv
        cases hv
      · obtain ⟨S₁, hk, hperf⟩ := Option.map_eq_some_iff.mp hperf
        simp only [kalloc, Option.ite_none_right_eq_some] at hk
        obtain ⟨⟨-, hfree⟩, hk⟩ := hk
        cases hk
        cases hperf
        cases hv
        exact ⟨by simp, .inr ⟨hfree d (by simp), rfl⟩⟩
    · exact hold (h.owner_thread (fun _ => hus) (by simp) ho) ho

theorem owners_setPgdir {d₀ : ℕ} {r : Unit} (h : Served S S' G V c s (.setPgdir d₀) r)
    (ho : HasDir S' (learn G s (.setPgdir d₀) r) (handOver V s (.setPgdir d₀) r) o d) :
    HasDir S G V (Equiv.swap (.inl s.1) (.inr s) o) d := by
  obtain ⟨old, hv⟩ := h.image
  obtain ⟨ch, hperf⟩ := h.perf
  cases o with
  | inl p =>
    by_cases hps : p = s.1
    · subst hps
      rw [Equiv.swap_apply_left]
      cases hperf
      obtain rfl : d₀ = d := by simpa using ho.2
      exact ⟨h.active, by rw [hv]; rfl⟩
    · rw [Equiv.swap_apply_of_ne_of_ne (by simpa using hps) (by simp)]
      exact h.owner_proc (by simp) (fun _ _ => hps) ho
  | inr u =>
    by_cases hus : u = s
    · subst hus
      rw [Equiv.swap_apply_right]
      have hd := ho.2
      rw [handOver_self (h.not_starts h.active), hv] at hd
      obtain rfl : old = d := Option.some.inj hd
      have hready := h.inv.ready (RunState.live_of_active h.active)
      refine ⟨.inl ?_, (h.spaces.old h.active hv).symm⟩
      obtain hs | hs := (Entry.isReady_iff _).mp hready <;> rw [hs] <;> rfl
    · rw [Equiv.swap_apply_of_ne_of_ne (by simp) (by simpa using hus)]
      exact h.owner_thread (by simp) (fun _ _ => hus) ho

section

variable (h : Served S S' G V c s e r)
include h

/-- **Where owners come from**: they owned the page directory before, after an exchange
between two of them, or they have got a page that was free. -/
theorem owners :
    ∃ (σ : Equiv.Perm (PId ⊕ Slot)) (o₀ : PId ⊕ Slot), ∀ {o d},
      HasDir S' (learn G s e r) (handOver V s e r) o d →
      S'.page d = .vm d ∧ (HasDir S G V (σ o) d ∨ S.page d = .free ∧ o = o₀) := by
  by_cases hcopy : ∃ q, e = .copyuvm q
  · obtain ⟨q, rfl⟩ := hcopy
    exact ⟨.refl _, .inl q, h.owners_copyuvm⟩
  by_cases hsetup : e = .setupkvm
  · subst hsetup
    exact ⟨.refl _, .inr s, h.owners_setupkvm⟩
  by_cases hset : ∃ d, e = .setPgdir d
  · obtain ⟨d₀, rfl⟩ := hset
    refine ⟨Equiv.swap (.inl s.1) (.inr s), .inr s, fun ho => ?_⟩
    have hown := h.owners_setPgdir ho
    refine ⟨?_, .inl hown⟩
    rw [h.marks.page rfl]
    exact h.spaces.dir hown
  · have hset' : ∀ d, e ≠ .setPgdir d := fun d he => hset ⟨d, he⟩
    refine ⟨.refl _, .inr s, fun {o d} ho => ?_⟩
    have hown : HasDir S G V o d := by
      cases o with
      | inl p => exact h.owner_proc (fun he => hcopy ⟨p, he⟩) (fun d he => absurd he (hset' d)) ho
      | inr u =>
        exact h.owner_thread (fun he => absurd he hsetup) (fun d he => absurd he (hset' d)) ho
    exact ⟨h.page_dir hown ho, .inl hown⟩

theorem stack (hp : SetUp Stage.stacked S' (learn G s e r) p) :
    ∃ n, (S'.proc p).kstack = n * kstacksize ∧ S'.page n = .stack p := by
  by_cases halloc : e = .stackAlloc p
  · subst halloc
    obtain ⟨ch, hperf⟩ := h.perf
    obtain ⟨rfl, rfl⟩ | ⟨rfl, page, rfl, hk⟩ := allocOr_done hperf
    · exact absurd hp (h.unused (by simp))
    · simp only [kalloc, Option.ite_none_right_eq_some] at hk
      obtain ⟨-, hk⟩ := hk
      cases hk
      refine ⟨ch.pages.headD 0, by simp, ?_⟩
      have hmem : ch.pages.headD 0 ∈ ch.pages.take 1 := by
        cases hp : ch.pages with
        | nil => rw [perform, hp] at hperf; cases hperf
        | cons => simp
      exact if_pos hmem
  · obtain ⟨n, hk, hn⟩ := h.spaces.stack (h.stacked halloc hp)
    refine ⟨n, ?_, h.page_stack hn hp⟩
    by_cases he : e.keepsKstacks = true
    · rw [h.marks.kstack he, hk]
    obtain ⟨ch, hperf⟩ := h.perf
    cases e with
    | stackAlloc q =>
      have hpq : p ≠ q := fun hpq => halloc (by rw [hpq])
      obtain ⟨-, rfl⟩ | ⟨-, page, rfl, -⟩ := allocOr_done hperf <;> simpa [hpq] using hk
    | forkFail q =>
      obtain ⟨page, rfl, -⟩ := forkFail_done hperf
      have hpq : p ≠ q := by
        rintro rfl
        exact h.unused (by simp) hp
      simpa [hpq] using hk
    | wait =>
      obtain ⟨q, page, -, -, -, -, -, rfl⟩ | ⟨-, -, -, rfl⟩ := wait_cases hperf
      · have hpq : p ≠ q := by
          rintro rfl
          exact h.unused (by simp) hp
        simpa [hpq] using hk
      · exact hk
    | _ => exact absurd rfl he

theorem cr3 {b : Fin ncpu} (hb : (S'.cpu b).thread = some u) :
    (S'.cpu b).cr3 = (S'.proc u.1).pgdir ∨ ∃ d, handOver V s e r u = .swapped d (S'.cpu b).cr3 := by
  obtain ⟨ch, hperf⟩ := h.perf
  rw [cpu_of_done hperf] at hb
  have hu := h.inv.running_active hb
  have hst := h.not_starts hu
  -- whoever has replaced the page directory comes to `switchuvm` next
  by_cases hsw : e = .switchuvm ∧ b = c
  · obtain ⟨rfl, rfl⟩ := hsw
    obtain rfl : s = u := Option.some.inj (h.cpu.symm.trans hb)
    simp only [perform] at hperf
    split at hperf
    · cases hperf
    · cases hperf
      exact .inl (by simp)
  have hcr3 : (S'.cpu b).cr3 = (S.cpu b).cr3 := by
    by_cases he : e = .switchuvm
    · subst he
      have hbc : b ≠ c := fun hbc => hsw ⟨rfl, hbc⟩
      simp only [perform] at hperf
      split at hperf
      · cases hperf
      · cases hperf
        simp [hbc]
    · exact h.marks.cr3 he b
  rw [hcr3]
  by_cases hus : u = s
  · subst hus
    have hnsw : e ≠ .switchuvm := fun he => hsw ⟨he, h.inv.alone hb h.cpu⟩
    rw [handOver_self hst]
    obtain hold | ⟨d, hv⟩ := h.spaces.cr3 hb
    · by_cases hset : ∃ d, e = .setPgdir d
      · obtain ⟨d, rfl⟩ := hset
        obtain ⟨old, hv⟩ := h.image
        refine .inr ⟨d, ?_⟩
        rw [hold, ← h.spaces.old h.active hv, hv]
        rfl
      · rw [h.pgdir_eq (h.ne_copyuvm hu) fun d he => absurd ⟨d, he⟩ hset]
        exact .inl hold
    · have himage := h.image
      rw [hv] at himage
      obtain ⟨d', rfl⟩ | he | ⟨d', rfl⟩ := op_of_committing himage rfl
      · obtain ⟨_, hcase⟩ := himage
        cases hcase
      · exact absurd he hnsw
      · obtain hcase | ⟨_, hcase⟩ := himage <;> cases hcase
  · rw [handOver_ne hus hst]
    obtain hold | hv := h.spaces.cr3 hb
    · rw [h.pgdir_eq (h.ne_copyuvm hu)]
      · exact .inl hold
      · rintro d rfl hu1
        obtain ⟨old, hv⟩ := h.image
        -- the one who replaces the page directory is alone
        refine Bool.false_ne_true ((h.spaces.alone h.active (by rw [hv]; rfl)).symm.trans ?_)
        refine hasOthers_iff.mpr ⟨u.2, fun h2 => hus (Prod.ext hu1 h2), ?_⟩
        rw [show (s.1, u.2) = u from Prod.ext hu1.symm rfl]
        exact RunState.live_of_active hu
    · exact .inr hv

theorem alone (halone : e = .pgdir → (V s).isBuilt = true → S.hasOthers s = false)
    (hu' : (S'.thread u).state.active = true) (hv : (handOver V s e r u).committing = true) :
    S'.hasOthers u = false := by
  by_cases hst : e.starts s = some u
  · rw [handOver_starts hst] at hv
    cases hv
  have hu := h.active_of_held hu' hst
  by_cases hus : u = s
  · subst hus
    rw [handOver_self hst] at hv
    obtain hold | ⟨rfl, hbuilt⟩ := committing_next hv
    · refine h.hasOthers_eq hu (h.spaces.alone hu hold) ?_
      rintro rfl
      obtain ⟨_, he⟩ | he | ⟨_, he⟩ := op_of_committing h.image hold <;> cases he
    · exact h.hasOthers_eq hu (halone rfl hbuilt) (by simp)
  · rw [handOver_ne hus hst] at hv
    exact h.hasOthers_eq hu (h.spaces.alone hu hv) fun _ => hus

theorem old {o : ℕ} (hu' : (S'.thread u).state.active = true) (hv : handOver V s e r u = .found d o) :
    o = (S'.proc u.1).pgdir := by
  by_cases hst : e.starts s = some u
  · rw [handOver_starts hst] at hv
    cases hv
  have hu := h.active_of_held hu' hst
  by_cases hus : u = s
  · subst hus
    rw [handOver_self hst] at hv
    obtain hold | ⟨rfl, -⟩ := committing_next (e := e) (r := r) (v := V u) (by rw [hv]; rfl)
    · have himage := h.image
      obtain ⟨d', rfl⟩ | rfl | ⟨d', rfl⟩ := op_of_committing himage hold
      · obtain ⟨_, hf⟩ := himage
        rw [hf] at hv
        cases hv
      · obtain hf | ⟨_, _, hf⟩ := himage <;> rw [hf] at hv <;> cases hv
      · cases hv
    · obtain ⟨ch, hperf⟩ := h.perf
      cases hperf
      obtain hf | ⟨d', hf⟩ := h.image
      · rw [hf] at hv
        cases hv
      · rw [hf] at hv
        cases hv
        rfl
  · rw [handOver_ne hus hst] at hv
    have hne := h.ne_of_committing hu (by rw [hv]; rfl) hus
    rw [h.pgdir_eq (h.ne_copyuvm hu) fun _ _ => hne]
    exact h.spaces.old hu hv

end

end Served

namespace Spaces

variable {V : Images}

theorem of_done (h : Spaces S G V) (ha : Answered S S' G c s ch e k r)
    (halone : e = .pgdir → (V s).isBuilt = true → S.hasOthers s = false) :
    Spaces { S' with code := update S'.code s (k r) } (learn G s e r)
      (handOver V s e r) := by
  have hperf := ha.perf
  have hs := ha.active
  have hsafe := ha.inv.safe hs
  rw [ha.code] at hsafe
  have himage := h.code hs
  rw [ha.code] at himage
  have hi' := ha.keeps
  have hsv : Served S S' G V c s e r :=
    { inv := ha.inv, spaces := h, cpu := ha.cpu, pre := hsafe.1, image := himage.1, perf := ⟨ch, hperf⟩
      fate := ha.fate
      kept := ha.thread
      turn := ha.turn
      unused := hi'.not_setUp }
  obtain ⟨σ, o₀, howners⟩ := hsv.owners
  refine ⟨fun {u} hu => ?_, fun ho => (howners ho).1, fun {o o' d} ho ho' => ?_, hsv.stack, hsv.cr3,
    hsv.alone halone, hsv.old⟩
  · by_cases hst : e.starts s = some u
    · have hus : u ≠ s := by
        rintro rfl
        exact hsv.not_starts hs hst
      have hret : S'.code u = forkret := by
        cases e with
        | forkDone q =>
          cases hst
          cases hperf
          exact (ha.inv.owns hs).code hsafe.1 (by simp) (by simp)
        | threadReady t =>
          cases hst
          cases hperf
          exact (ha.inv.owns hs).threadCode hsafe.1
        | _ => cases hst
      rw [handOver_starts hst]
      simp only [update_of_ne hus, hret]
      exact plain_forkret.image
    · by_cases hus : u = s
      · subst hus
        rw [handOver_self hst]
        simp only [update_self]
        exact himage.2 r
      · have hu := hsv.active_of_held hu hst
        rw [handOver_ne hus hst]
        simp only [update_of_ne hus, ha.code_kept hu]
        exact h.code hu
  · obtain ⟨-, ho | ⟨hfree, rfl⟩⟩ := howners ho <;> obtain ⟨-, ho' | ⟨hfree', rfl⟩⟩ := howners ho'
    · exact σ.injective (h.inj ho ho')
    · cases hfree'.symm.trans (h.dir ho)
    · cases hfree.symm.trans (h.dir ho')
    · rfl

theorem same (h : Spaces S G V) (hproc : S'.proc = S.proc) (hpage : S'.page = S.page)
    (hact : ∀ {u}, (S'.thread u).state.active = true → (S.thread u).state.active = true)
    (hlive : ∀ u, (S'.thread u).state.live = (S.thread u).state.live)
    (hcode : ∀ {u}, (S'.thread u).state.active = true →
      (S'.code u).Safe imageRules (fun _ v => v = .none) (V u))
    (hcr3 : ∀ {c u}, (S'.cpu c).thread = some u →
      (S'.cpu c).cr3 = (S.proc u.1).pgdir ∨ ∃ d, V u = .swapped d (S'.cpu c).cr3) :
    Spaces S' G V := by
  have hset : ∀ {f p}, SetUp f S' G p → SetUp f S G p := by
    intro f p hp
    obtain hs | ⟨u, st, hu, hg, hst⟩ := hp
    · exact .inl (by rwa [hproc] at hs)
    · exact .inr ⟨u, st, hact hu, hg, hst⟩
  have hown : ∀ {o d}, HasDir S' G V o d → HasDir S G V o d := by
    intro o d ho
    cases o with
    | inl p => exact ⟨hset ho.1, by rw [← hproc]; exact ho.2⟩
    | inr u => exact ⟨hact ho.1, ho.2⟩
  refine ⟨hcode, fun ho => ?_, fun ho ho' => h.inj (hown ho) (hown ho'), fun hp => ?_, fun hb => ?_,
    fun {u} hu hv => ?_, fun hu hv => ?_⟩
  · rw [hpage]
    exact h.dir (hown ho)
  · rw [hproc, hpage]
    exact h.stack (hset hp)
  · rw [hproc]
    exact hcr3 hb
  · have halone := h.alone (hact hu) hv
    simp only [hasOthers] at halone ⊢
    simpa only [hlive] using halone
  · rw [hproc]
    exact h.old (hact hu) hv

theorem leave (h : Spaces S G V) (hi : Inv S G) (hc : (S.cpu c).thread = some s)
    (hproc : S'.proc = S.proc) (hpage : S'.page = S.page) (hcode : S'.code = S.code)
    (hs : (S'.thread s).state.live = true)
    (hthread : ∀ u, u ≠ s → (S'.thread u).state = (S.thread u).state)
    (hcpu : (S'.cpu c).thread = none) (hcpu' : ∀ d, d ≠ c → S'.cpu d = S.cpu d) :
    Spaces S' G V := by
  have hact : ∀ {u}, (S'.thread u).state.active = true → (S.thread u).state.active = true := by
    intro u hu
    by_cases hus : u = s
    · rw [hus]
      exact hi.running_active hc
    · rwa [hthread u hus] at hu
  refine h.same hproc hpage hact (fun u => ?_) (fun hu => ?_) fun {b u} hb => ?_
  · by_cases hus : u = s
    · subst hus
      rw [hs, RunState.live_of_active (hi.running_active hc)]
    · rw [hthread u hus]
  · rw [hcode]
    exact h.code (hact hu)
  · have hbc : b ≠ c := by
      rintro rfl
      rw [hcpu] at hb
      cases hb
    rw [hcpu' b hbc] at hb ⊢
    exact h.cr3 hb

theorem space_of_gone (hperf : S.perform c s ch e = some (.gone S')) :
    S'.page = S.page ∧ S'.code = S.code ∧ ∀ p, (S'.proc p).pgdir = (S.proc p).pgdir ∧
      (S'.proc p).kstack = (S.proc p).kstack := by
  obtain rfl | rfl := gone_cases hperf
  · obtain rfl := threadExit_gone hperf
    exact ⟨rfl, rfl, fun p => ⟨rfl, rfl⟩⟩
  · cases (withRow_gone hperf).2
    refine ⟨rfl, rfl, fun p => ?_⟩
    by_cases hp : p = s.1
    · subst hp
      simp only [Kernel.leave, exitTables, setCpu_proc, setThread_proc, setProc_self, reparent]
      split_ifs <;> exact ⟨rfl, rfl⟩
    · simp only [Kernel.leave, exitTables, setCpu_proc, setThread_proc, setProc_ne _ hp, reparent]
      split_ifs <;> exact ⟨rfl, rfl⟩

theorem setUp_of_gone (hi : Inv S G) (ha : Adopted S G) (hc : (S.cpu c).thread = some s)
    (hperf : S.perform c s ch e = some (.gone S')) {f : Stage → Bool} (hf : f .child = true)
    {p : PId} (hp : SetUp f S' G p) : SetUp f S G p := by
  obtain hs | ⟨u, st, hu, hg, hst⟩ := hp
  · obtain rfl | rfl := gone_cases hperf
    · obtain rfl := threadExit_gone hperf
      exact .inl hs
    · have hex := (exitDone_gone hperf).1
      by_cases hps : p = s.1
      · subst hps
        have hready := hi.ready (RunState.live_of_active (hi.running_active hc))
        refine .inl ?_
        obtain hr | hr := (Entry.isReady_iff _).mp hready <;> rw [hr] <;> rfl
      · by_cases hpar : (S.proc p).parent = some s.1
        · cases hstate : (S.proc p).state with
          | unused => cases hpar.symm.trans (hi.orphan hstate)
          | embryo =>
            obtain ⟨u, -, hu, st, hg⟩ := ha p s.1 hstate hpar
            have hparent := (hi.owns hu).parent hg
            rw [hpar] at hparent
            split_ifs at hparent with hst
            exact .inr ⟨u, st, hu, hg, hst ▸ hf⟩
          | _ => exact .inl (by rw [hstate]; rfl)
        · rw [hex.other hps hpar] at hs
          exact .inl hs
  · exact .inr ⟨u, st, active_of_gone hperf hu, hg, hst⟩

theorem of_gone (h : Spaces S G V) (hi : Inv S G) (ha : Adopted S G)
    (hc : (S.cpu c).thread = some s) (hperf : S.perform c s ch e = some (.gone S')) :
    Spaces S' G V := by
  have hact : ∀ {u}, (S'.thread u).state.active = true → (S.thread u).state.active = true :=
    active_of_gone hperf
  obtain ⟨hpage, hcode, hentry⟩ := space_of_gone hperf
  have hown : ∀ {o d}, HasDir S' G V o d → HasDir S G V o d := by
    intro o d ho
    cases o with
    | inl p =>
      exact ⟨setUp_of_gone hi ha hc hperf rfl ho.1, (hentry p).1.symm.trans ho.2⟩
    | inr u => exact ⟨hact ho.1, ho.2⟩
  refine ⟨fun hu => ?_, fun ho => ?_, fun ho ho' => h.inj (hown ho) (hown ho'), fun {p} hp => ?_,
    fun {b u} hb => ?_, fun {u} hu hv => ?_, fun {u _ _} hu hv => ?_⟩
  · rw [hcode]
    exact h.code (hact hu)
  · rw [hpage]
    exact h.dir (hown ho)
  · rw [hpage, (hentry p).2]
    exact h.stack (setUp_of_gone hi ha hc hperf rfl hp)
  · have hbc : b ≠ c := by
      rintro rfl
      rw [left_of_gone hperf] at hb
      cases hb
    rw [cpu_of_gone hperf hbc] at hb ⊢
    rw [(hentry u.1).1]
    exact h.cr3 hb
  · refine Bool.eq_false_iff.mpr fun hothers => ?_
    obtain ⟨t, ht, hlive⟩ := hasOthers_iff.mp hothers
    have halone := h.alone (hact hu) hv
    exact Bool.false_ne_true
      (halone.symm.trans (hasOthers_iff.mpr ⟨t, ht, live_of_gone hperf hlive⟩))
  · rw [(hentry u.1).1]
    exact h.old (hact hu) hv

end Spaces

end Xv6.Proc
