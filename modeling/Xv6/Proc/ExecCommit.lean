import Xv6.Proc.PageDirs

/-!
# `exec` and the other threads of its process

When `exec` has built the new image it stores the new page directory in the process and
frees the old one.  A thread of the process that is still alive then runs on a page
directory that is gone.  There is a loop before the commit that is meant to wait for the
other threads, but its counter starts at zero and the loop runs only at `NTHREAD - 1`, so it
is never entered.

The condition on steps is what the loop should have seen to: that a thread comes to the
commit of `exec` only when it is alone in its process (`CommitsAlone`).  How far the threads
have come in `exec` is recorded along the run (`stepImaged`).
-/

namespace Xv6.Proc

open Function Transition Kernel

variable {ncpu : ℕ} {S S' : Kernel ncpu} {G : Slot → Ctx} {c : Fin ncpu} {s u : Slot}

/-! ## Runs -/

namespace Kernel

/-- The record after an action. -/
def images (S : Kernel ncpu) (V : Images) : Act ncpu → Images
  | .run c ch =>
    match S.nextOp c with
    | none => V
    | some (s, e) =>
      match S.perform c s ch e with
      | some (.done r _) => handOver V s e r
      | _ => V
  | _ => V

/-- Test for the condition on the commit. -/
def commitsAlone (S : Kernel ncpu) (V : Images) : Act ncpu → Bool
  | .run c _ =>
    match S.nextOp c with
    | some (s, .pgdir) => !((V s).isBuilt && S.hasOthers s)
    | _ => true
  | _ => true

end Kernel

/-- One step of the kernel, and of the record. -/
def stepImaged {ncpu : ℕ} : StepFn (Kernel ncpu × Images) (Act ncpu) Unit := fun x a =>
  match step x.1 a with
  | none => none
  | some (.error e) => some (.error e)
  | some (.ok S') => some (.ok (S', x.1.images x.2 a))

/-- At the start nobody is in `exec`. -/
def Unimaged (x : Kernel ncpu × Images) : Prop := Booted x.1 ∧ x.2 = fun _ => .none

/-- The steps that are orderly, and in which a thread that comes to the commit of `exec` is
alone in its process. -/
def CommitsAlone (x : Kernel ncpu × Images) (a : Act ncpu) : Prop :=
  Orderly x.1 a ∧ x.1.commitsAlone x.2 a = true

instance (x : Kernel ncpu × Images) (a : Act ncpu) : Decidable (CommitsAlone x a) :=
  inferInstanceAs (Decidable (_ ∧ _ = true))

theorem CommitsAlone.alone {V : Images} {ch : Choice} {e : KOp} {k : e.Ans → KProg Unit}
    (h : CommitsAlone (S, V) (.run c ch)) (hc : (S.cpu c).thread = some s)
    (hcode : S.code s = .vis e k) (he : e = .pgdir) (hv : (V s).isBuilt = true) :
    S.hasOthers s = false := by
  subst he
  simpa only [commitsAlone, nextOp_eq hc hcode, hv, Bool.true_and, Bool.not_eq_true'] using h.2

theorem Spaces.step {V : Images} {G' : Slot → Ctx} {a : Act ncpu} (h : Spaces S G V)
    (hi : Inv S G) (ha : Adopted S G) (hok : CommitsAlone (S, V) a) (hm : Moves S G a S' G') :
    Spaces S' G' (S.images V a) := by
  cases hm with
  | schedule hc hrun =>
    rename_i c s
    have hstate := runnable_of_canRun hrun
    have hact : ∀ u, ((S.dispatch c s).thread u).state.active = (S.thread u).state.active ∧
        ((S.dispatch c s).thread u).state.live = (S.thread u).state.live := by
      intro u
      by_cases hus : u = s
      · subst hus
        simp [dispatch, hstate]
      · simp [dispatch, hus]
    refine h.same rfl rfl (fun {u} hu => (hact u).1 ▸ hu) (fun u => (hact u).2)
      (fun {u} hu => h.code ((hact u).1 ▸ hu)) fun {b u} hb => ?_
    by_cases hbc : b = c
    · subst hbc
      obtain rfl : s = u := by simpa [dispatch] using hb
      exact .inl (by simp [dispatch])
    · simp only [dispatch, setThread_cpu, setCpu_ne _ hbc] at hb ⊢
      exact h.cr3 hb
  | done hc hcode hperf =>
    rw [images, nextOp_eq hc hcode]
    dsimp only
    rw [hperf]
    exact h.of_done ⟨hi, hc, hcode, hperf, hok.1.hasOthers hc hcode⟩ (hok.alone hc hcode)
  | sleep hc hcode hperf =>
    rw [images, nextOp_eq hc hcode]
    dsimp only
    rw [hperf]
    refine h.leave hi hc rfl rfl rfl (by simp [sleepOn, Kernel.leave]) (fun u hu => ?_)
      (by simp [sleepOn, Kernel.leave]) fun d hd => ?_
    · simp [sleepOn, Kernel.leave, hu]
    · simp [sleepOn, Kernel.leave, hd]
  | gone hc hcode hperf =>
    rw [images, nextOp_eq hc hcode]
    dsimp only
    rw [hperf]
    exact h.of_gone hi ha hc hperf
  | enter hc hcode =>
    rename_i c s t
    have hs := hi.running_active hc
    have hnone : V s = .none := by
      have hsafe := h.code hs
      rw [hcode] at hsafe
      exact hsafe
    have hstart := hi.start_of_code hc hcode
    rw [← hstart, update_eq_self]
    refine h.same rfl rfl (fun hu => hu) (fun _ => rfl) (fun {u} hu => ?_) fun {b u} hb => ?_
    · by_cases hus : u = s
      · subst hus
        show (update S.code u (trap t) u).Safe imageRules _ (V u)
        rw [update_self, hnone]
        exact image_trap t
      · show (update S.code s (trap t) u).Safe imageRules _ (V u)
        rw [update_of_ne hus]
        exact h.code hu
    · by_cases hbc : b = c
      · subst hbc
        simp only [setCpu_self] at hb ⊢
        exact h.cr3 hb
      · simp only [setCpu_ne _ hbc] at hb ⊢
        exact h.cr3 hb
  | tick hc hcode hs =>
    refine h.leave hi hc rfl rfl rfl (by simp [yield, Kernel.leave]) (fun u hu => ?_)
      (by simp [yield, Kernel.leave]) fun d hd => ?_
    · simp [yield, Kernel.leave, hu]
    · simp [yield, Kernel.leave, hd]
  | intr =>
    have hquiet := quiet_wakeup1 S ‹Chan›
    refine h.same rfl rfl (fun {u} hu => (hquiet.active_eq u) ▸ hu) hquiet.live_eq
      (fun {u} hu => h.code ((hquiet.active_eq u) ▸ hu)) fun hb => h.cr3 hb

theorem Spaces.of_booted (h : Booted S) : Spaces S (fun _ => .start) fun _ => .none := by
  obtain ⟨k, d, avail, -, -, hkd, rfl⟩ := h
  have hfirst : ∀ {f p}, SetUp f (boot ncpu k d avail) (fun _ => .start) p → p = 0 := by
    intro f p hp
    obtain hs | ⟨_, _, _, hg, _⟩ := hp
    · by_contra hp
      simp [boot, hp, Entry.empty] at hs
    · cases hg
  have hown : ∀ {o d'}, HasDir (boot ncpu k d avail) (fun _ => .start) (fun _ => .none) o d' →
      o = .inl 0 ∧ d' = d := by
    intro o d' ho
    cases o with
    | inl p =>
      obtain rfl := hfirst ho.1
      exact ⟨rfl, ho.2.symm⟩
    | inr u => cases ho.2
  refine ⟨fun _ => plain_forkret.image, fun ho => ?_, fun ho ho' => ?_, fun hp => ?_, fun hb => ?_,
    fun _ hv => ?_, fun _ hv => ?_⟩
  · obtain ⟨-, rfl⟩ := hown ho
    simp [boot, Ne.symm hkd]
  · rw [(hown ho).1, (hown ho').1]
  · obtain rfl := hfirst hp
    exact ⟨k, by simp [boot], by simp [boot]⟩
  · cases hb
  · cases hv
  · cases hv

/-! ## The commit of `exec` -/

/-- **`exec` is alone when it commits**, and page directories are freed once, when nobody
runs on them. -/
structure ExecSound (x : Kernel ncpu × Images) : Prop where
  /-- When `proc->pgdir` is replaced, every other thread of the process is a zombie or
  unused. -/
  replaces : ∀ c s d, x.1.nextOp c = some (s, .setPgdir d) → ∀ t, t ≠ s.2 →
    (x.1.thread (s.1, t)).state = .unused ∨ (x.1.thread (s.1, t)).state = .zombie
  /-- When a page directory is freed, it is either the new one of an `exec` that fails, or
  the old one, and then every other thread of the process is a zombie or unused. -/
  frees : ∀ c s d, x.1.nextOp c = some (s, .freevm d) → x.2 s = .built d ∨
    (∃ d', x.2 s = .switched d' d) ∧ ∀ t, t ≠ s.2 →
      (x.1.thread (s.1, t)).state = .unused ∨ (x.1.thread (s.1, t)).state = .zombie
  /-- It has not been freed before; it is not that of a process, no processor runs on it, and
  no other thread in `exec` is going to free it. -/
  once : ∀ c s d, x.1.nextOp c = some (s, .freevm d) → x.1.page d = .vm d ∧
    (∀ p, (x.1.proc p).state.settled = true → (x.1.proc p).pgdir ≠ d) ∧
    (∀ b u, (x.1.cpu b).thread = some u → (x.1.cpu b).cr3 ≠ d) ∧
    ∀ u, u ≠ s → (x.1.thread u).state.active = true → (x.2 u).held ≠ some d
  /-- A thread runs on a page directory that has not been freed: that of its process, or the
  one that the thread itself has just replaced. -/
  runs : ∀ c s, (x.1.cpu c).thread = some s → x.1.page (x.1.cpu c).cr3 = .vm (x.1.cpu c).cr3 ∧
    ((x.1.cpu c).cr3 = (x.1.proc s.1).pgdir ∨ ∃ d, x.2 s = .swapped d (x.1.cpu c).cr3)

theorem others_dead (h : S.hasOthers s = false) {t : TId} (ht : t ≠ s.2) :
    (S.thread (s.1, t)).state = .unused ∨ (S.thread (s.1, t)).state = .zombie := by
  have hnot : (S.thread (s.1, t)).state.live ≠ true := fun hlive =>
    Bool.false_ne_true (h.symm.trans (hasOthers_iff.mpr ⟨t, ht, hlive⟩))
  cases hst : (S.thread (s.1, t)).state with
  | unused => exact .inl rfl
  | zombie => exact .inr rfl
  | _ => simp [hst] at hnot

theorem Spaces.execSound {V : Images} (h : Spaces S G V) (hi : Inv S G) : ExecSound (S, V) := by
  have hready : ∀ {b u}, (S.cpu b).thread = some u → SetUp Stage.imaged S G u.1 := by
    intro b u hb
    have hr := hi.ready (RunState.live_of_active (hi.running_active hb))
    refine .inl ?_
    obtain hs | hs := (Entry.isReady_iff _).mp hr <;> rw [hs] <;> rfl
  have hpre : ∀ {c s e}, S.nextOp c = some (s, e) →
      (S.thread s).state.active = true ∧ e.imagePre (V s) := by
    intro c s e hnext
    obtain ⟨hc, k, hcode⟩ := nextOp_iff.mp hnext
    have hs := hi.running_active hc
    have hsafe := h.code hs
    rw [hcode] at hsafe
    exact ⟨hs, hsafe.1⟩
  refine ⟨fun c s d hnext t ht => ?_, fun c s d hnext => ?_, fun c s d hnext => ?_, fun c s hc => ?_⟩
  · obtain ⟨hs, old, hv⟩ := hpre hnext
    exact others_dead (h.alone hs (by rw [hv]; rfl)) ht
  · obtain ⟨hs, hv | ⟨d', hv⟩⟩ := hpre hnext
    · exact .inl hv
    · exact .inr ⟨⟨d', hv⟩, fun t ht => others_dead (h.alone hs (by rw [hv]; rfl)) ht⟩
  · obtain ⟨hs, hv⟩ := hpre hnext
    have hown : HasDir S G V (.inr s) d := by
      refine ⟨hs, ?_⟩
      obtain hv | ⟨d', hv⟩ := hv <;> rw [hv] <;> rfl
    refine ⟨h.dir hown, fun p hp hd => ?_, fun b u hb hd => ?_, fun u hus hu hd => ?_⟩
    · cases h.inj (o := .inl p) ⟨.inl hp, hd⟩ hown
    · obtain hcr3 | ⟨d', hu⟩ := h.cr3 hb
      · cases h.inj (o := .inl u.1) ⟨hready hb, hcr3.symm.trans hd⟩ hown
      · have hown' : HasDir S G V (.inr u) d := ⟨hi.running_active hb, by rw [hu]; exact congrArg some hd⟩
        cases h.inj hown' hown
        obtain hv | ⟨_, hv⟩ := hv <;> cases hu.symm.trans hv
    · cases h.inj (o := .inr u) ⟨hu, hd⟩ hown
      exact hus rfl
  · have hcr3 := h.cr3 hc
    refine ⟨?_, hcr3⟩
    obtain hcr3 | ⟨d, hv⟩ := hcr3
    · exact h.dir (o := .inl s.1) ⟨hready hc, hcr3.symm⟩
    · exact h.dir (o := .inr s) ⟨hi.running_active hc, by rw [hv]; rfl⟩

/-! ## Runs in which `exec` is called -/

/-- Test whether thread `s` on processor `c` is about to free page directory `d`. -/
def Kernel.freesNext (S : Kernel ncpu) (c : Fin ncpu) (s : Slot) (d : ℕ) : Bool :=
  match S.nextOp c with
  | some (u, .freevm d') => u == s && d' == d
  | _ => false

theorem nextOp_of_freesNext {d : ℕ} (h : S.freesNext c s d = true) :
    S.nextOp c = some (s, .freevm d) := by
  unfold freesNext at h
  split at h
  · rename_i hop
    simp only [Bool.and_eq_true, beq_iff_eq] at h
    rw [hop, h.1, h.2]
  · cases h

/-- The first process at the start, with nobody in `exec`. -/
def unimaged : Kernel 2 × Images := (booted, fun _ => .none)

theorem unimaged_unimaged : Unimaged unimaged := ⟨booted_booted, rfl⟩

/-- The thread on `c` calls `exec("sh")`, finds the file and comes to the commit, with pages
`d` and `d + 1` for the new image. -/
def execs (c : Fin 2) (d : ℕ) : List (Act 2) :=
  calls c (.exec (some [115, 104])) 9 ++
    [.run c ⟨1, [], 0⟩, .run c ⟨2, [], 0⟩, go c, .run c ⟨2, [], 0⟩] ++ List.replicate 7 (go c) ++
    [.run c ⟨1, [], 0⟩, goPage c d] ++ List.replicate 7 (go c) ++
    [goPage c (d + 1), .run c ⟨1, [], 0⟩]

/-- The first process creates a thread, which comes to user space on the other processor. -/
def twoThreads : List (Act 2) :=
  initRuns ++ calls cpu0 (.kthreadCreate 4000) 6 ++ [.schedule cpu1 (0, 1), go cpu1]

/-- **`exec` is single-threaded at its commit**, in runs in which a thread that comes to the
commit is alone in its process. -/
theorem exec_commit_alone {x : Kernel ncpu × Images}
    (h : Reach stepImaged CommitsAlone Unimaged x) : ExecSound x := by
  have hinv : ∃ G, Inv x.1 G ∧ Adopted x.1 G ∧ Spaces x.1 G x.2 := by
    refine Reach.invariant (I := fun x => ∃ G, Inv x.1 G ∧ Adopted x.1 G ∧ Spaces x.1 G x.2)
      ?_ ?_ h
    · rintro ⟨S, V⟩ ⟨hb, rfl⟩
      exact ⟨_, .of_booted hb, .of_booted hb _, .of_booted hb⟩
    · rintro ⟨S, V⟩ a ⟨S', V'⟩ ⟨G, hi, ha, hs⟩ hok hstep
      simp only [stepImaged] at hstep
      split at hstep
      · cases hstep
      · cases hstep
      · rename_i hst
        cases hstep
        obtain ⟨G', hm⟩ := Moves.of_step G hst
        exact ⟨G', hi.step hok.1 hm, ha.step hi hok.1 hm, hs.step hi ha hok hm⟩
  obtain ⟨G, hi, -, hs⟩ := hinv
  exact hs.execSound hi

/-- The first process calls `exec` when it has one thread. -/
theorem exec_commit_alone_init :
    ∃ x : Kernel 2 × Images, (Reach stepImaged CommitsAlone Unimaged x ∧
      x.1.nextOp cpu0 = some ((0, 0), .freevm 11) ∧ x.2 (0, 0) = .switched 30 11) ∧ ExecSound x := by
  have hm : Meets stepImaged CommitsAlone unimaged
      (initRuns ++ execs cpu0 30 ++ List.replicate 3 (go cpu0)) := by
    decide +kernel
  have he : endsIn stepImaged unimaged (initRuns ++ execs cpu0 30 ++ List.replicate 3 (go cpu0))
      (fun x => x.1.freesNext cpu0 (0, 0) 11 && x.2 (0, 0) == .switched 30 11) = true := by
    decide +kernel
  obtain ⟨x, hx, ht⟩ := Reach.of_endsIn unimaged_unimaged he hm
  simp only [Bool.and_eq_true, beq_iff_eq] at ht
  exact ⟨x, ⟨hx, nextOp_of_freesNext ht.1, ht.2⟩, exec_commit_alone hx⟩

/-- One thread calls `exec` while the other is in user space. -/
def oneExecs : List (Act 2) := twoThreads ++ execs cpu0 30 ++ List.replicate 4 (go cpu0)

/-- Both threads call `exec` and read `proc->pgdir`; the first goes on and frees it, and the
second comes to the same point. -/
def bothExec : List (Act 2) :=
  twoThreads ++ execs cpu0 30 ++ execs cpu1 40 ++ [go cpu0, go cpu1] ++
    List.replicate 3 (go cpu0) ++ List.replicate 2 (go cpu1)

/-- **`exec` frees a page directory that is in use**: the process has two threads; one calls
`exec`, and the other is in user space, on the page directory that has been freed.  And if
both call `exec` they both free it. -/
theorem exec_frees_under_thread :
    (∃ x : Kernel 2 × Images, Reach stepImaged (fun x a => Orderly x.1 a) Unimaged x ∧
      (x.1.cpu cpu1).thread = some (0, 1) ∧ x.1.nextOp cpu1 = none ∧
        x.1.page (x.1.cpu cpu1).cr3 = .free ∧ ¬ExecSound x) ∧
    ∃ x : Kernel 2 × Images, Reach stepImaged (fun x a => Orderly x.1 a) Unimaged x ∧
      x.1.nextOp cpu1 = some ((0, 1), .freevm 11) ∧ x.1.page 11 = .free ∧ ¬ExecSound x := by
  constructor
  · have hm : Meets stepImaged (fun x a => Orderly x.1 a) unimaged oneExecs := by decide +kernel
    have he : endsIn stepImaged unimaged oneExecs (fun x =>
        (x.1.cpu cpu1).thread == some (0, 1) && (x.1.nextOp cpu1).isNone &&
          x.1.page (x.1.cpu cpu1).cr3 == .free) = true := by
      decide +kernel
    obtain ⟨x, hx, ht⟩ := Reach.of_endsIn unimaged_unimaged he hm
    simp only [Bool.and_eq_true, beq_iff_eq, Option.isNone_iff_eq_none] at ht
    refine ⟨x, hx, ht.1.1, ht.1.2, ht.2, fun hsound => ?_⟩
    cases ht.2.symm.trans (hsound.runs _ _ ht.1.1).1
  · have hm : Meets stepImaged (fun x a => Orderly x.1 a) unimaged bothExec := by decide +kernel
    have he : endsIn stepImaged unimaged bothExec (fun x =>
        x.1.freesNext cpu1 (0, 1) 11 && x.1.page 11 == .free) = true := by
      decide +kernel
    obtain ⟨x, hx, ht⟩ := Reach.of_endsIn unimaged_unimaged he hm
    simp only [Bool.and_eq_true, beq_iff_eq] at ht
    have hnext := nextOp_of_freesNext ht.1
    refine ⟨x, hx, hnext, ht.2, fun hsound => ?_⟩
    cases ht.2.symm.trans (hsound.once _ _ _ hnext).1

end Xv6.Proc
