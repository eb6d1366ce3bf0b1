import Xv6.Proc.Setup

/-!
# Every orderly step keeps the life cycle

The other steps: the scheduler, the ways off a processor, and the ends of threads and
processes.  `kthread_exit` and `exit` take threads away; this is where `Orderly` is used.
-/

namespace Xv6.Proc

open Function Transition Kernel

variable {ncpu : ℕ} {S S' : Kernel ncpu} {G : Slot → Ctx} {c : Fin ncpu} {s : Slot}
  {p : KProg Unit}

namespace Inv

/-! ## Scheduling -/

theorem of_schedule (h : Inv S G) (hc : (S.cpu c).thread = none) (hrun : S.canRun c s = true) :
    Inv (S.dispatch c s) G := by
  have hs := runnable_of_canRun hrun
  have hother : ∀ u, u ≠ s → (S.dispatch c s).thread u = S.thread u :=
    fun u hu => by simp [dispatch, hu]
  have hself : ((S.dispatch c s).thread s).state = .running := by simp [dispatch]
  have hlive : ∀ u, ((S.dispatch c s).thread u).state.live = (S.thread u).state.live := by
    intro u
    by_cases hu : u = s
    · rw [hu, hself, hs]
      rfl
    · rw [hother u hu]
  have hon : ∀ {d u}, ((S.dispatch c s).cpu d).thread = some u →
      d = c ∧ u = s ∨ (S.cpu d).thread = some u ∧ u ≠ s := by
    intro d u hd
    by_cases hdc : d = c
    · subst hdc
      refine .inl ⟨rfl, ?_⟩
      simpa [dispatch] using hd.symm
    · refine .inr ?_
      have hd' : (S.cpu d).thread = some u := by simpa [dispatch, hdc] using hd
      refine ⟨hd', ?_⟩
      rintro rfl
      rw [h.running hd'] at hs
      cases hs
  have htab : Tables (S.dispatch c s) := by
    refine ⟨fun hd => ?_, fun hd hd' => ?_, fun hu => h.ready (hlive _ ▸ hu), h.row, fun hp => ?_,
      h.orphan⟩
    · obtain ⟨rfl, rfl⟩ | ⟨hd, hu⟩ := hon hd
      · exact hself
      · rw [hother _ hu]
        exact h.running hd
    · obtain ⟨rfl, rfl⟩ | ⟨hd, hu⟩ := hon hd
      · obtain ⟨rfl, _⟩ | ⟨_, hu⟩ := hon hd'
        · rfl
        · exact absurd rfl hu
      · obtain ⟨rfl, rfl⟩ | ⟨hd', _⟩ := hon hd'
        · exact absurd rfl hu
        · exact h.alone hd hd'
    · obtain ⟨t, ht⟩ := h.peopled hp
      exact ⟨t, (hlive _).trans ht⟩
  have hact : ∀ u, ((S.dispatch c s).thread u).state.active = true →
      (S.thread u).state.active = true := by
    intro u hu
    by_cases hus : u = s
    · simp [hus, hs]
    · rwa [hother u hus] at hu
  refine h.same htab (fun u hu => ⟨hact u hu, rfl⟩) fun u hu => ?_
  refine (h.owns (hact u hu)).of_same (fun _ _ _ => ⟨rfl, rfl, rfl⟩) fun t b hg => ⟨?_, rfl⟩
  rw [hother]
  intro he
  have := (h.owns (hact u hu)).thread hg
  rw [he, hs] at this
  cases this

section

variable (h : Inv S G) (hc : (S.cpu c).thread = some s)
include h hc

theorem of_leave (hproc : S'.proc = S.proc) (hs : (S'.thread s).state.active = true)
    (hthread : ∀ u, u ≠ s → (S'.thread u).state = (S.thread u).state)
    (hcpu : (S'.cpu c).thread = none) (hcpu' : ∀ d, d ≠ c → S'.cpu d = S.cpu d)
    (hcode : S'.code = S.code) : Inv S' G := by
  have hact : ∀ u, (S'.thread u).state.active = true → (S.thread u).state.active = true := by
    intro u hu
    by_cases hus : u = s
    · rw [hus]
      exact h.running_active hc
    · rwa [hthread u hus] at hu
  have htab := h.toTables.leave hc hproc (RunState.live_of_active hs) hthread hcpu hcpu'
  refine h.same htab (fun u hu => ⟨hact u hu, by rw [hcode]⟩) fun u hu => ?_
  refine (h.owns (hact u hu)).of_same (fun _ _ _ => by simp [hproc, hcode]) fun t b hg =>
    ⟨hthread _ fun he => ?_, by rw [hcode]⟩
  have := (h.owns (hact u hu)).thread hg
  rw [he, h.running hc] at this
  cases this

theorem of_sleepOn (chan : Chan) (depth : ℕ) : Inv (S.sleepOn c s chan depth) G :=
  h.of_leave hc rfl (by simp [sleepOn, Kernel.leave]) (fun u hu => by simp [sleepOn, Kernel.leave, hu])
    (by simp [sleepOn, Kernel.leave]) (fun d hd => by simp [sleepOn, Kernel.leave, hd]) rfl

theorem of_yield (depth : ℕ) : Inv (S.yield c s depth) G :=
  h.of_leave hc rfl (by simp [yield, Kernel.leave]) (fun u hu => by simp [yield, Kernel.leave, hu])
    (by simp [yield, Kernel.leave]) (fun d hd => by simp [yield, Kernel.leave, hd]) rfl

theorem of_enter (t : Trap) :
    Inv { S.setCpu c fun k => { k with ktop := k.esp0 } with
      code := update S.code s (trap t) } (update G s .start) :=
  h.goOn (.setCpu S c fun _ => rfl) hc (safe_trap t) (.of_idle rfl rfl) (by simp [Ctx.start])
    (by simp [Ctx.start])

end

end Inv

/-! ## The end of a thread -/

theorem hasOthers_iff : S.hasOthers s = true ↔
    ∃ t, t ≠ s.2 ∧ (S.thread (s.1, t)).state.live = true := by
  simp [hasOthers]

theorem siblingRuns_eq_false : S.siblingRuns s = false ↔
    ∀ d u, (S.cpu d).thread = some u → u.1 = s.1 → u = s := by
  simp only [siblingRuns, List.any_eq_false, List.mem_finRange, true_implies, Option.any_eq_true,
    Bool.and_eq_true, beq_iff_eq, bne_iff_ne, not_exists, not_and, not_not, ne_eq]

theorem rowIdle_iff {q : PId} : S.rowIdle q = true ↔
    ∀ t, (S.thread (q, t)).state.live = false := by
  simp only [rowIdle, List.all_eq_true, List.mem_finRange, true_implies, Bool.or_eq_true, beq_iff_eq]
  refine forall_congr' fun t => ?_
  cases (S.thread (q, t)).state <;> simp

namespace Inv

section

variable (h : Inv S G) (hc : (S.cpu c).thread = some s) (hother : S.hasOthers s = true)
include h hc hother

theorem retire (hproc : S'.proc = S.proc) (hs : (S'.thread s).state = .zombie)
    (hthread : ∀ u, u ≠ s → (S'.thread u).state = (S.thread u).state ∨
      (S.thread u).state = .sleeping ∧ (S'.thread u).state = .runnable)
    (hcpu : (S'.cpu c).thread = none) (hcpu' : ∀ d, d ≠ c → S'.cpu d = S.cpu d)
    (hcode : S'.code = S.code) : Inv S' G := by
  have hlive : ∀ u, u ≠ s → (S'.thread u).state.live = (S.thread u).state.live := by
    intro u hu
    obtain h | ⟨h₁, h₂⟩ := hthread u hu
    · rw [h]
    · simp [h₁, h₂]
  have hne : ∀ u, (S'.thread u).state.live = true → u ≠ s := by
    rintro u hu rfl
    simp [hs] at hu
  have hact : ∀ u, (S'.thread u).state.active = true → (S.thread u).state.active = true := by
    intro u hu
    obtain h | ⟨h₁, _⟩ := hthread u (hne u (RunState.live_of_active hu))
    · rwa [h] at hu
    · simp [h₁]
  have hon {d u} := h.on_of_left (d := d) (u := u) hc hcpu hcpu'
  have htab : Tables S' := by
    refine ⟨fun hd => ?_, fun hd hd' => h.alone (hon hd).1 (hon hd').1, fun {u} hu => ?_,
      fun {q} hq => ?_, fun {q} hq => ?_, fun {q} hq => ?_⟩
    · obtain ⟨hd, hu⟩ := hon hd
      have hr := h.running hd
      exact ((hthread _ hu).resolve_right (by simp [hr])).trans hr
    · rw [hproc]
      exact h.ready (hlive u (hne u hu) ▸ hu)
    · rw [hproc] at hq ⊢
      exact h.row hq
    · rw [hproc] at hq
      obtain ⟨t, ht⟩ := h.peopled hq
      by_cases hqs : (q, t) = s
      · -- the thread that was there is gone, but it was not alone
        obtain ⟨t', ht', hlive'⟩ := hasOthers_iff.mp hother
        obtain rfl : q = s.1 := congrArg Prod.fst hqs
        exact ⟨t', (hlive _ fun he => ht' (congrArg Prod.snd he)).trans hlive'⟩
      · exact ⟨t, (hlive _ hqs).trans ht⟩
    · rw [hproc] at hq ⊢
      exact h.orphan hq
  refine h.same htab (fun u hu => ⟨hact u hu, by rw [hcode]⟩) fun u hu => ?_
  refine (h.owns (hact u hu)).of_same (fun _ _ _ => by simp [hproc, hcode]) fun t b hg =>
    ⟨(hthread _ fun he => ?_).resolve_right ?_, by rw [hcode]⟩
  · have := (h.owns (hact u hu)).thread hg
    rw [he, h.running hc] at this
    cases this
  · simp [(h.owns (hact u hu)).thread hg]

theorem of_threadExit {ch : Choice} (hperf : S.perform c s ch .threadExit = some (.gone S')) :
    Inv S' G := by
  obtain rfl := threadExit_gone hperf
  refine h.retire hc hother rfl ?_ (fun u hu => ?_) (by simp [Kernel.leave])
    (fun d hd => by simp [Kernel.leave, threadGone, wakeupThreads, hd]) rfl
  · simp [Kernel.leave, threadGone, wakeupThreads, wake]
  · simp only [Kernel.leave, threadGone, wakeupThreads, setCpu_thread, setThread_ne _ hu]
    split
    · exact wake_state _ _
    · exact .inl rfl

end

end Inv

/-! ## The end of a process -/

theorem wakeup1_live (chan : Chan) (u : Slot) :
    ((S.wakeup1 chan).thread u).state.live = (S.thread u).state.live :=
  (quiet_wakeup1 S chan).live_eq u

theorem wakeup1_rowIdle (chan : Chan) (q : PId) : (S.wakeup1 chan).rowIdle q = S.rowIdle q := by
  rw [Bool.eq_iff_iff, rowIdle_iff, rowIdle_iff]
  simp only [wakeup1_live]

theorem reparent_other {p : PId} (mem : ℕ) {q : PId} (hpar : (S.proc q).parent ≠ some p) :
    (S.reparent p mem).proc q = S.proc q := by
  simp [reparent, hpar]

theorem reparent_child {p : PId} (mem : ℕ) {q : PId} (hpar : (S.proc q).parent = some p) :
    ∃ st, (S.reparent p mem).proc q = { S.proc q with state := st, parent := some S.initproc } ∧
      (st = (S.proc q).state ∨ st = .zombie ∧ ((S.proc q).threads = true → S.rowIdle q = true)) := by
  simp only [reparent, hpar, if_true]
  by_cases hidle : (if (S.proc q).threads = true then S.rowIdle q else mem.testBit q) = true
  · rw [if_pos hidle]
    refine ⟨.zombie, rfl, .inr ⟨rfl, fun hthreads => ?_⟩⟩
    rwa [if_pos hthreads] at hidle
  · rw [if_neg hidle]
    exact ⟨_, rfl, .inl rfl⟩

theorem reparent_files (p : PId) (mem : ℕ) (q : PId) :
    ((S.reparent p mem).proc q).ofile = (S.proc q).ofile ∧
      ((S.reparent p mem).proc q).cwd = (S.proc q).cwd := by
  by_cases hpar : (S.proc q).parent = some p
  · obtain ⟨_, h, -⟩ := reparent_child mem hpar
    simp [h]
  · simp [reparent_other mem hpar]

/-- What `exit` in process `p` does to the tables. -/
structure Exited (S S' : Kernel ncpu) (p : PId) : Prop where
  state : (S'.proc p).state = .zombie
  ofile : (S'.proc p).ofile = (S.proc p).ofile
  cwd : (S'.proc p).cwd = (S.proc p).cwd
  other : ∀ {q}, q ≠ p → (S.proc q).parent ≠ some p → S'.proc q = S.proc q
  /-- A child is given to `init`, and is a zombie afterwards if it was one or has no thread. -/
  child : ∀ {q}, q ≠ p → (S.proc q).parent = some p → ∃ st, S'.proc q =
    { S.proc q with state := st, parent := some S.initproc } ∧
    (st = (S.proc q).state ∨ st = .zombie ∧ ((S.proc q).threads = true → S.rowIdle q = true))
  thread : ∀ {u : Slot}, u.1 = p → (S'.thread u).state = .zombie
  wake : ∀ {u : Slot}, u.1 ≠ p → (S'.thread u).state = (S.thread u).state ∨
    (S.thread u).state = .sleeping ∧ (S'.thread u).state = .runnable

theorem exitTables_exited (S : Kernel ncpu) (p : PId) (mem : ℕ) :
    Exited S (S.exitTables p mem) p := by
  refine ⟨?_, ?_, ?_, fun {q} hq hpar => ?_, fun {q} hq hpar => ?_, fun {u} hu => ?_,
    fun {u} hu => ?_⟩
  · simp only [exitTables, setProc_self]
  · simp only [exitTables, setProc_self]
    exact (reparent_files p mem p).1
  · simp only [exitTables, setProc_self]
    exact (reparent_files p mem p).2
  · simp only [exitTables, setProc_ne _ hq]
    exact reparent_other (S := S.wakeup1 _) mem hpar
  · obtain ⟨st, h, hst⟩ :=
      reparent_child (S := S.wakeup1 ((S.proc p).parent.elim .null .proc)) mem hpar
    refine ⟨st, ?_, by rwa [wakeup1_rowIdle] at hst⟩
    simp only [exitTables, setProc_ne _ hq]
    exact h
  · simp [exitTables, hu]
  · simp only [exitTables, hu, if_false, reparent]
    exact (quiet_wakeup1 S _).thread u

namespace Exited

variable {q : PId}

theorem state_of_live (h : Exited S S' s.1) (ht : Tables S) {t : TId}
    (hq : q ≠ s.1) (hlive : (S.thread (q, t)).state.live = true) :
    (S'.proc q).state = (S.proc q).state := by
  by_cases hpar : (S.proc q).parent = some s.1
  · obtain ⟨st, he, hst | ⟨_, hidle⟩⟩ := h.child hq hpar
    · rw [he, hst]
    · have hready := ht.ready (s := (q, t)) hlive
      have := rowIdle_iff.mp (hidle (ht.row (Entry.live_of_isReady hready))) t
      rw [hlive] at this
      cases this
  · rw [h.other hq hpar]

theorem survivor {p q : PId} (h : Exited S S' p) (hq : (S'.proc q).state ≠ .zombie) :
    q ≠ p ∧ (S'.proc q = S.proc q ∨ (S.proc q).parent = some p ∧
      S'.proc q = { S.proc q with parent := some S.initproc }) := by
  have hqp : q ≠ p := by
    rintro rfl
    exact hq h.state
  refine ⟨hqp, ?_⟩
  by_cases hpar : (S.proc q).parent = some p
  · obtain ⟨st, he, rfl | ⟨rfl, -⟩⟩ := h.child hqp hpar
    · exact .inr ⟨hpar, he⟩
    · exact absurd (by rw [he]) hq
  · exact .inl (h.other hqp hpar)

theorem tables (h : Exited S S' s.1) (ht : Tables S) (hc : (S.cpu c).thread = some s)
    (hsib : S.siblingRuns s = false) (hcpu : (S'.cpu c).thread = none)
    (hcpu' : ∀ d, d ≠ c → S'.cpu d = S.cpu d) : Tables S' := by
  have hne : ∀ u : Slot, (S'.thread u).state.live = true → u.1 ≠ s.1 := by
    intro u hu he
    simp [h.thread he] at hu
  have hlive : ∀ u : Slot, u.1 ≠ s.1 → (S'.thread u).state.live = (S.thread u).state.live := by
    intro u hu
    obtain h | ⟨h₁, h₂⟩ := h.wake hu
    · rw [h]
    · simp [h₁, h₂]
  -- a processor that is still busy runs a thread of another process
  have hon : ∀ {d u}, (S'.cpu d).thread = some u → (S.cpu d).thread = some u ∧ u.1 ≠ s.1 := by
    intro d u hd
    obtain ⟨hd, hus⟩ := ht.on_of_left hc hcpu hcpu' hd
    exact ⟨hd, fun he => hus (siblingRuns_eq_false.mp hsib d u hd he)⟩
  refine ⟨fun hd => ?_, fun hd hd' => ht.alone (hon hd).1 (hon hd').1, fun {u} hu => ?_,
    fun {q} hq => ?_, fun {q} hq => ?_, fun {q} hq => ?_⟩
  · obtain ⟨hd, hu⟩ := hon hd
    have hr := ht.running hd
    exact ((h.wake hu).resolve_right (by simp [hr])).trans hr
  · have hus := hne u hu
    rw [hlive u hus] at hu
    rw [Entry.isReady_congr (h.state_of_live ht hus hu)]
    exact ht.ready hu
  · obtain ⟨-, he | ⟨-, he⟩⟩ := h.survivor (q := q) fun hz => by simp [hz] at hq
    all_goals
      rw [he] at hq ⊢
      exact ht.row hq
  · obtain ⟨hqs, he⟩ := h.survivor (q := q) fun hz => by simp [hz] at hq
    have hq' : (S.proc q).state.active = true := by
      obtain he | ⟨-, he⟩ := he <;> rwa [he] at hq
    obtain ⟨t, hlt⟩ := ht.peopled hq'
    exact ⟨t, (hlive (q, t) hqs).trans hlt⟩
  · obtain ⟨-, he | ⟨hpar, he⟩⟩ := h.survivor (q := q) fun hz => by simp [hz] at hq
    · rw [he] at hq ⊢
      exact ht.orphan hq
    · rw [he] at hq
      rw [ht.orphan hq] at hpar
      cases hpar

theorem inv (h : Exited S S' s.1) (hi : Inv S G) (hc : (S.cpu c).thread = some s)
    (hsib : S.siblingRuns s = false) (hcpu : (S'.cpu c).thread = none)
    (hcpu' : ∀ d, d ≠ c → S'.cpu d = S.cpu d) (hcode : S'.code = S.code) : Inv S' G := by
  have hne : ∀ u : Slot, (S'.thread u).state.active = true → u.1 ≠ s.1 := by
    intro u hu he
    simp [h.thread he] at hu
  have hact : ∀ u, (S'.thread u).state.active = true → (S.thread u).state.active = true := by
    intro u hu
    obtain h | ⟨h₁, _⟩ := h.wake (hne u hu)
    · rwa [h] at hu
    · simp [h₁]
  refine hi.same (h.tables hi.toTables hc hsib hcpu hcpu') (fun u hu => ⟨hact u hu, by rw [hcode]⟩)
    fun u hu => ?_
  have hown := hi.owns (hact u hu)
  refine hown.of_same (fun q st hg => ?_) fun t b hg => ⟨?_, by rw [hcode]⟩
  · -- a process that another one is setting up is not a child of this one
    have hqs : q ≠ s.1 := (hown.ne_first hi.toTables (hi.running_live hc) hg).symm
    have hpar : (S.proc q).parent ≠ some s.1 := by
      rw [hown.parent hg]
      split
      · exact fun he => hne u hu (Option.some.inj he)
      · simp
    rw [h.other hqs hpar, hcode]
    exact ⟨rfl, rfl, rfl⟩
  · exact (h.wake (u := (u.1, t)) (hne u hu)).resolve_right (by simp [hown.thread hg])

end Exited

theorem exitDone_gone {ch : Choice} (hperf : S.perform c s ch .exitDone = some (.gone S')) :
    Exited S S' s.1 ∧ (S'.cpu c).thread = none ∧ (∀ d, d ≠ c → S'.cpu d = S.cpu d) ∧
      S'.code = S.code := by
  obtain ⟨-, hperf⟩ := withRow_gone hperf
  cases hperf
  have h := exitTables_exited S s.1 ch.n
  refine ⟨⟨h.state, h.ofile, h.cwd, h.other, h.child, fun {u} hu => ?_, fun {u} hu => ?_⟩,
    by simp [Kernel.leave], fun d hd => ?_, rfl⟩
  · by_cases hus : u = s
    · subst hus
      simpa [Kernel.leave] using h.thread rfl
    · simpa [Kernel.leave, hus] using h.thread hu
  · have hus : u ≠ s := fun he => hu (by rw [he])
    simpa [Kernel.leave, hus] using h.wake hu
  · simp only [Kernel.leave, setCpu_ne _ hd]
    rfl

theorem gone_cases {e : KOp} {ch : Choice} (h : S.perform c s ch e = some (.gone S')) :
    e = .threadExit ∨ e = .exitDone := by
  cases e with
  | threadExit => exact .inl rfl
  | exitDone => exact .inr rfl
  | threadAlloc | threadJoin =>
    obtain ⟨-, h⟩ := withRow_gone h
    repeat' split at h
    all_goals cases h
  | stackAlloc | copyuvm | pipeAlloc =>
    simp only [perform, allocOr] at h
    split at h <;> simp at h
  | setupkvm | allocuvm =>
    simp only [perform] at h
    split at h <;> simp at h
  | _ =>
    simp only [perform] at h
    repeat' split at h
    all_goals cases h

namespace Inv

theorem of_wait (h : Inv S G) (hc : (S.cpu c).thread = some s) {ch : Choice} {r : Int32}
    (hperf : S.perform c s ch .wait = some (.done r S')) (hp : Finishes p (KOp.wait.next r (G s))) :
    Inv { S' with code := update S'.code s p }
      (update G s (KOp.wait.next r (G s))) := by
  obtain ⟨q, page, -, -, -, -, hz, rfl⟩ | ⟨-, -, -, rfl⟩ := wait_cases hperf
  · exact h.entry hc (Entry.not_ready_of_not_live (by simp [hz]))
      (fun u _ hu => h.unowned (by simp [hz]) hu) rfl rfl rfl rfl rfl (by simp) (by simp) hp rfl
      (fun _ _ hg => .inr hg) fun st hg => absurd hg (h.unowned (by simp [hz]) (h.running_active hc) st)
  · exact h.goOn' (.of_eq rfl rfl rfl rfl) hc hp rfl rfl

end Inv

/-! ## All steps -/

theorem learn_of_quiet {e : KOp} (he : e.quiet = true) (G : Slot → Ctx) (s : Slot) (r : e.Ans) :
    learn G s e r = update G s (e.next r (G s)) := by
  cases e <;> first | rfl | cases he

theorem next_owned {e : KOp} (he : e.quiet = true) (hc : ∀ q, e ≠ .copyuvm q) (r : e.Ans) (g : Ctx) :
    (e.next r g).np = g.np ∧ (e.next r g).nt = g.nt := by
  cases e with
  | copyuvm q => exact absurd rfl (hc q)
  | ofile | iputTest => cases r <;> exact ⟨rfl, rfl⟩
  | setOfile fd f => cases f <;> exact ⟨rfl, rfl⟩
  | setCwd ip => cases ip <;> exact ⟨rfl, rfl⟩
  | iputEnd ip freed => cases freed <;> exact ⟨rfl, rfl⟩
  | _ => first | exact ⟨rfl, rfl⟩ | cases he

theorem next_closing_none {e : KOp} (he : e ≠ .exitEnter) (r : e.Ans) {g : Ctx}
    (hg : g.closing = none) : (e.next r g).closing = none := by
  cases e with
  | exitEnter => exact absurd rfl he
  | ofile fd => cases r <;> simp [Ctx.seeFd, hg]
  | setOfile fd f => cases f <;> simp [Ctx.seeFd, hg]
  | setCwd ip => cases ip <;> simp [Ctx.seeCwd, hg]
  | iputTest ip => cases r <;> exact hg
  | iputEnd ip freed => cases freed <;> exact hg
  | _ => exact hg

namespace Inv

theorem of_quiet (h : Inv S G) (hc : (S.cpu c).thread = some s) {e : KOp} (he : e.quiet = true)
    (hq : Quiet S S') {r : e.Ans} (hpre : e.pre (G s)) (hp : Finishes p (e.next r (G s))) :
    Inv { S' with code := update S'.code s p } (update G s (e.next r (G s))) := by
  by_cases hcopy : ∃ q, e = .copyuvm q
  · obtain ⟨q, rfl⟩ := hcopy
    have hown := (h.owns (h.running_active hc)).quiet hq
    refine h.goOn hq hc hp ⟨fun {q' st} hg => ?_, fun {q' st} hg => ?_, fun {q' st} hg _ _ => ?_,
      hown.thread, hown.threadCode⟩ (fun q' st hg => ?_) fun _ b hg => ⟨b, hg⟩
    all_goals
      obtain ⟨rfl, hst⟩ : q = q' ∧ (if r = true then Stage.image else .init) = st := by
        simpa using hg
    · exact hown.embryo hpre
    · rw [hown.parent hpre, ← hst]
      cases r <;> rfl
    · exact hown.code hpre (by simp) (by simp)
    · exact ⟨_, hpre⟩
  · have hnext := next_owned he (fun q hq => hcopy ⟨q, hq⟩) r (G s)
    exact h.goOn' hq hc hp hnext.1 hnext.2

end Inv

/-- Thread `s`, which runs on processor `c`, has performed `e` and been answered with `r`. The
last thread of a process leaves through `exit`. -/
structure Answered (S S' : Kernel ncpu) (G : Slot → Ctx) (c : Fin ncpu) (s : Slot) (ch : Choice)
    (e : KOp) (k : e.Ans → KProg Unit) (r : e.Ans) : Prop where
  inv : Inv S G
  cpu : (S.cpu c).thread = some s
  code : S.code s = .vis e k
  perf : S.perform c s ch e = some (.done r S')
  others : e = .threadExit → S.hasOthers s = true

variable {ch : Choice} {e : KOp} {k : e.Ans → KProg Unit} {r : e.Ans}

namespace Answered

section

variable (ha : Answered S S' G c s ch e k r)
include ha

theorem active : (S.thread s).state.active = true :=
  ha.inv.running_active ha.cpu

theorem pre : e.pre (G s) := ha.inv.pre_of_code ha.cpu ha.code

theorem owns : Owns S s (G s) := ha.inv.owns ha.active

end

theorem not_last {k : Unit → KProg Unit} {r : Unit} (ha : Answered S S' G c s ch .threadExit k r) :
    False := by
  obtain ⟨-, hperf⟩ := withRow_done ha.perf
  split at hperf
  · rename_i hidle
    obtain ⟨t, ht, hlive⟩ := hasOthers_iff.mp (ha.others rfl)
    have := rowIdle_iff.mp hidle t
    rw [setThread_ne _ fun he => ht (congrArg Prod.snd he), hlive] at this
    cases this
  · cases hperf

theorem keeps (ha : Answered S S' G c s ch e k r) :
    Inv { S' with code := update S'.code s (k r) } (learn G s e r) := by
  have h := ha.inv
  have hc := ha.cpu
  have hperf := ha.perf
  have hsafe := h.safe ha.active
  rw [ha.code] at hsafe
  obtain ⟨hpre, hk⟩ := hsafe
  have hp := hk r
  by_cases hq : e.quiet = true
  · rw [learn_of_quiet hq]
    exact h.of_quiet hc hq ((perform_frame hperf).quiet hq) hpre hp
  · cases e with
    | procAlloc =>
      cases hperf
      exact h.of_procAlloc hc hp hpre
    | stackAlloc q => exact h.of_stackAlloc hc hperf hp hpre
    | procInit q =>
      cases hperf
      exact h.of_procInit hc hp hpre
    | forkFail q => exact h.of_forkFail hc hperf hp hpre
    | forkThread q =>
      cases hperf
      exact h.of_forkThread hc hp hpre
    | forkDone q => exact h.of_forkDone hc hperf hp hpre
    | threadAlloc =>
      cases (withRow_done hperf).2
      exact h.of_threadAlloc hc hp hpre
    | threadInit t size =>
      cases hperf
      exact h.of_threadInit hc hp hpre
    | threadReady t => exact h.of_threadReady hc hperf hp hpre
    | threadExit => exact ha.not_last.elim
    | exitDone => exact r.elim
    | wait => exact h.of_wait hc hperf hp
    | _ => exact absurd rfl hq

end Answered

namespace Inv

theorem of_gone (h : Inv S G) (hc : (S.cpu c).thread = some s) (hcode : S.code s = .vis e k)
    (hok : Orderly S (.run c ch)) (hperf : S.perform c s ch e = some (.gone S')) : Inv S' G := by
  obtain rfl | rfl := gone_cases hperf
  · exact h.of_threadExit hc (hok.hasOthers hc hcode rfl) hperf
  · obtain ⟨hex, hcpu, hcpu', hcode'⟩ := exitDone_gone hperf
    exact hex.inv h hc (hok.alone hc hcode) hcpu hcpu' hcode'

theorem step {G' : Slot → Ctx} {a : Act ncpu} (h : Inv S G) (hok : Orderly S a)
    (hm : Moves S G a S' G') : Inv S' G' := by
  cases hm with
  | schedule hc hrun => exact h.of_schedule hc hrun
  | done hc hcode hperf => exact Answered.keeps ⟨h, hc, hcode, hperf, hok.hasOthers hc hcode⟩
  | sleep hc hcode hperf => exact h.of_sleepOn hc _ _
  | gone hc hcode hperf => exact h.of_gone hc hcode hok hperf
  | enter hc hcode => exact h.of_enter hc _
  | tick hc hcode hs => exact h.of_yield hc _
  | intr => exact h.quiet (quiet_wakeup1 S _)

end Inv

/-! ## What becomes of entries and threads -/

/-- What has happened to a thread that was neither started nor ended: nothing, or it was
woken up, or it could not run before and cannot now. -/
def Kept (S S' : Kernel ncpu) (u : Slot) : Prop :=
  (S'.thread u).state = (S.thread u).state ∨
  (S.thread u).state = .sleeping ∧ (S'.thread u).state = .runnable ∨
  (S.thread u).state.active = false ∧ (S'.thread u).state.active = false

namespace Kept

variable {u : Slot}

theorem active_iff (h : Kept S S' u) :
    (S'.thread u).state.active = true ↔ (S.thread u).state.active = true := by
  obtain h | ⟨h₁, h₂⟩ | ⟨h₁, h₂⟩ := h
  · rw [h]
  · simp [h₁, h₂]
  · rw [h₁, h₂]

theorem running (h : Kept S S' u) (hu : (S'.thread u).state = .running) :
    (S.thread u).state = .running := by
  obtain h | ⟨-, h⟩ | ⟨-, h⟩ := h
  · exact h.symm.trans hu
  · exact absurd (h.symm.trans hu) (by simp)
  · simp [hu] at h

theorem of_quiet (h : Quiet S S') (u : Slot) : Kept S S' u :=
  (h.thread u).imp_right .inl

end Kept

/-- **What an answered operation does to the threads that it does not start.** -/
theorem Answered.thread (ha : Answered S S' G c s ch e k r) {u : Slot} (hst : e.starts s ≠ some u) :
    Kept S S' u := by
  have hperf := ha.perf
  have hpre := ha.pre
  have hown := ha.owns
  -- threads of a process that is being set up cannot run
  have hoff : ∀ {q st}, (G s).np = some (q, st) → u.1 = q → (S.thread u).state.active = false :=
    fun hg hu => Bool.eq_false_iff.mpr fun hact =>
      hown.ne_first ha.inv.toTables (RunState.live_of_active hact) hg hu
  by_cases hq : e.quiet = true
  · exact .of_quiet ((perform_frame hperf).quiet hq) u
  cases e with
  | procAlloc =>
    cases hperf
    unfold procAlloc
    split <;> exact .inl rfl
  | stackAlloc q =>
    obtain ⟨rfl, rfl⟩ | ⟨rfl, page, rfl, -⟩ := allocOr_done hperf <;> exact .inl rfl
  | procInit q =>
    cases hperf
    by_cases hu : u.1 = q
    · refine .inr (.inr ⟨hoff hpre hu, ?_⟩)
      simp only [procInit, hu, if_true]
      split <;> rfl
    · exact .inl (by simp [procInit, hu])
  | forkFail q =>
    obtain ⟨page, rfl, -⟩ := forkFail_done hperf
    exact .inl rfl
  | forkThread q =>
    cases hperf
    by_cases hu : u.1 = q
    · by_cases hu2 : u.2 = 0
      · exact .inl (by simp [forkThread, hu, hu2])
      · exact .inr (.inr ⟨hoff hpre hu, by simp [forkThread, hu, hu2]⟩)
    · exact .inl (by simp [forkThread, hu])
  | forkDone q =>
    cases hperf
    exact .inl (by rw [setThread_ne _ fun he => hst (by rw [he]; rfl)]; rfl)
  | threadAlloc =>
    cases (withRow_done hperf).2
    unfold threadAlloc
    split
    · exact .inl rfl
    · rename_i t ht
      by_cases hut : u = (s.1, t)
      · have hunused : (S.thread (s.1, t)).state = .unused := by simpa using first?_eq_some ht
        exact .inr (.inr (by simp [hut, hunused]))
      · exact .inl (by simp [hut])
  | threadInit t size =>
    cases hperf
    by_cases hut : u = (s.1, t) <;> exact .inl (by simp [threadInit, hut])
  | threadReady t =>
    cases hperf
    exact .inl (by rw [setThread_ne _ fun he => hst (by rw [he]; rfl)])
  | threadExit => exact ha.not_last.elim
  | exitDone => exact r.elim
  | wait =>
    obtain ⟨q, page, -, -, -, -, -, rfl⟩ | ⟨-, -, -, rfl⟩ := wait_cases hperf <;> exact .inl rfl
  | _ => exact absurd rfl hq

theorem cpu_of_done (hperf : S.perform c s ch e = some (.done r S')) (d : Fin ncpu) :
    (S'.cpu d).thread = (S.cpu d).thread := by
  by_cases hq : e.quiet = true
  · exact ((perform_frame hperf).quiet hq).cpu d
  cases e with
  | procAlloc =>
    cases hperf
    unfold procAlloc
    split <;> rfl
  | stackAlloc q =>
    obtain ⟨rfl, rfl⟩ | ⟨rfl, page, rfl, -⟩ := allocOr_done hperf <;> rfl
  | forkFail q =>
    obtain ⟨page, rfl, -⟩ := forkFail_done hperf
    rfl
  | threadAlloc =>
    cases (withRow_done hperf).2
    unfold threadAlloc
    split <;> rfl
  | threadExit =>
    obtain ⟨-, hperf⟩ := withRow_done hperf
    split at hperf <;> cases hperf
    rfl
  | exitDone => exact r.elim
  | wait =>
    obtain ⟨q, page, -, -, -, -, -, rfl⟩ | ⟨-, -, -, rfl⟩ := wait_cases hperf <;> rfl
  | procInit | forkThread | forkDone | threadInit | threadReady =>
    cases hperf
    rfl
  | _ => exact absurd rfl hq

theorem starts_runnable (hperf : S.perform c s ch e = some (.done r S')) {u : Slot}
    (hst : e.starts s = some u) : (S'.thread u).state = .runnable := by
  cases e with
  | forkDone | threadReady =>
    cases hst
    cases hperf
    simp
  | _ => cases hst

theorem Inv.starts_not_active (h : Inv S G) (hc : (S.cpu c).thread = some s) (hpre : e.pre (G s))
    {u : Slot} (hst : e.starts s = some u) : (S.thread u).state.active = false := by
  have hown := h.owns (h.running_active hc)
  cases e with
  | forkDone q =>
    cases hst
    refine Bool.eq_false_iff.mpr fun hu => ?_
    exact hown.ne_first h.toTables (RunState.live_of_active hu) hpre rfl
  | threadReady t =>
    cases hst
    simp [hown.thread hpre]
  | _ => cases hst

/-- What an answered operation does to the state of an entry: nothing; or the entry is being
set up, and it does not become a zombie; or a zombie is reaped; or `allocproc` takes it. -/
theorem Answered.entry (ha : Answered S S' G c s ch e k r) (q : PId) :
    (S'.proc q).state = (S.proc q).state ∨
    (S.proc q).state = .embryo ∧ (S'.proc q).state ≠ .zombie ∨
    (S.proc q).state = .zombie ∧ (S'.proc q).state = .unused ∨
    (S.proc q).state = .unused ∧ e = .procAlloc ∧ S.procAlloc.1 = some q ∧
      (S'.proc q).state = .embryo := by
  have hperf := ha.perf
  have hpre := ha.pre
  have hown := ha.owns
  by_cases hq : e.quiet = true
  · exact .inl (((perform_frame hperf).quiet hq).state q)
  cases e with
  | procAlloc =>
    cases hperf
    unfold procAlloc
    split
    · exact .inl rfl
    · rename_i q' hq'
      by_cases hqq : q = q'
      · subst hqq
        have hunused : (S.proc q).state = .unused := by simpa using first?_eq_some hq'
        exact .inr (.inr (.inr ⟨hunused, rfl, rfl, by simp⟩))
      · exact .inl (by simp [hqq])
  | stackAlloc q' =>
    by_cases hqq : q = q'
    · subst hqq
      refine .inr (.inl ⟨hown.embryo hpre, ?_⟩)
      obtain ⟨rfl, rfl⟩ | ⟨rfl, page, rfl, -⟩ := allocOr_done hperf
      · simp
      · simp [hown.embryo hpre]
    · obtain ⟨rfl, rfl⟩ | ⟨rfl, page, rfl, -⟩ := allocOr_done hperf <;> exact .inl (by simp [hqq])
  | forkFail q' =>
    obtain ⟨page, rfl, -⟩ := forkFail_done hperf
    by_cases hqq : q = q'
    · subst hqq
      exact .inr (.inl ⟨hown.embryo hpre, by simp⟩)
    · exact .inl (by simp [hqq])
  | forkThread q' =>
    cases hperf
    by_cases hqq : q = q'
    · subst hqq
      exact .inl (by simp [forkThread])
    · exact .inl (by simp [forkThread, hqq])
  | forkDone q' =>
    cases hperf
    by_cases hqq : q = q'
    · subst hqq
      exact .inr (.inl ⟨hown.embryo hpre, by simp⟩)
    · exact .inl (by simp [hqq])
  | threadAlloc =>
    cases (withRow_done hperf).2
    unfold threadAlloc
    split <;> exact .inl rfl
  | procInit | threadInit | threadReady =>
    cases hperf
    exact .inl rfl
  | threadExit => exact ha.not_last.elim
  | exitDone => exact r.elim
  | wait =>
    obtain ⟨q', page, -, -, -, -, hz, rfl⟩ | ⟨-, -, -, rfl⟩ := wait_cases hperf
    · by_cases hqq : q = q'
      · subst hqq
        exact .inr (.inr (.inl ⟨hz, by simp⟩))
      · exact .inl (by simp [hqq])
    · exact .inl rfl
  | _ => exact absurd rfl hq

section

variable (hperf : S.perform c s ch e = some (.gone S'))
include hperf

theorem gone_frame : SameFiles S S' ∧ SameHolds S S' := by
  obtain rfl | rfl := gone_cases hperf
  · obtain rfl := threadExit_gone hperf
    exact ⟨sameFiles_of_eq rfl rfl, ⟨rfl, rfl, rfl, rfl⟩⟩
  · have hex := (exitDone_gone hperf).1
    obtain ⟨-, hperf⟩ := withRow_gone hperf
    cases hperf
    have hfiles : ∀ q, (((S.exitTables s.1 ch.n).leave c s ch.depth).proc q).ofile =
        (S.proc q).ofile ∧ (((S.exitTables s.1 ch.n).leave c s ch.depth).proc q).cwd =
        (S.proc q).cwd := by
      intro q
      by_cases hqs : q = s.1
      · subst hqs
        exact ⟨hex.ofile, hex.cwd⟩
      · by_cases hpar : (S.proc q).parent = some s.1
        · obtain ⟨_, he, -⟩ := hex.child hqs hpar
          rw [he]
          exact ⟨rfl, rfl⟩
        · rw [hex.other hqs hpar]
          exact ⟨rfl, rfl⟩
    exact ⟨⟨fun q => (hfiles q).1, fun q => (hfiles q).2, rfl⟩, ⟨rfl, rfl, rfl, rfl⟩⟩

theorem wake_of_gone {u : Slot} (hus : u ≠ s) (hu : e = .threadExit ∨ u.1 ≠ s.1) :
    (S'.thread u).state = (S.thread u).state ∨
      (S.thread u).state = .sleeping ∧ (S'.thread u).state = .runnable := by
  obtain rfl | rfl := gone_cases hperf
  · obtain rfl := threadExit_gone hperf
    simp only [Kernel.leave, threadGone, wakeupThreads, setCpu_thread, setThread_ne _ hus]
    split
    · exact wake_state (.thread s) (S.thread u)
    · exact .inl rfl
  · exact (exitDone_gone hperf).1.wake (hu.resolve_left (by simp))

theorem thread_of_gone {u : Slot} (hus : u ≠ s) (hu : e = .threadExit ∨ u.1 ≠ s.1) : Kept S S' u :=
  (wake_of_gone hperf hus hu).imp_right .inl

theorem ended_of_gone {u : Slot} (hu : u = s ∨ e = .exitDone ∧ u.1 = s.1) :
    (S'.thread u).state = .zombie := by
  obtain rfl | rfl := gone_cases hperf
  · obtain rfl : u = s := hu.resolve_right (by simp)
    obtain rfl := threadExit_gone hperf
    simp [Kernel.leave, threadGone, wakeupThreads, wake]
  · refine (exitDone_gone hperf).1.thread ?_
    obtain rfl | ⟨-, hu⟩ := hu
    · rfl
    · exact hu

theorem cpu_of_gone {d : Fin ncpu} (hd : d ≠ c) : S'.cpu d = S.cpu d := by
  obtain rfl | rfl := gone_cases hperf
  · obtain rfl := threadExit_gone hperf
    simp [Kernel.leave, threadGone, wakeupThreads, hd]
  · exact (exitDone_gone hperf).2.2.1 d hd

theorem left_of_gone : (S'.cpu c).thread = none := by
  obtain rfl | rfl := gone_cases hperf
  · obtain rfl := threadExit_gone hperf
    simp [Kernel.leave]
  · exact (exitDone_gone hperf).2.1

theorem live_of_gone {u : Slot} (hu : (S'.thread u).state.live = true) :
    (S.thread u).state.live = true := by
  have hnot : ¬(u = s ∨ e = .exitDone ∧ u.1 = s.1) := by
    intro hend
    simp [ended_of_gone hperf hend] at hu
  rw [not_or, not_and] at hnot
  obtain hsame | ⟨hs, -⟩ := wake_of_gone hperf hnot.1 ((gone_cases hperf).imp_right hnot.2)
  · rwa [hsame] at hu
  · simp [hs]

theorem active_of_gone {u : Slot} (hu : (S'.thread u).state.active = true) :
    (S.thread u).state.active = true := by
  have hnot : ¬(u = s ∨ e = .exitDone ∧ u.1 = s.1) := by
    intro hend
    simp [ended_of_gone hperf hend] at hu
  rw [not_or, not_and] at hnot
  refine (thread_of_gone hperf hnot.1 ?_).active_iff.mp hu
  exact (gone_cases hperf).imp_right hnot.2

end

theorem Inv.of_booted (h : Booted S) : Inv S fun _ => .start := by
  obtain ⟨k, d, avail, -, -, -, rfl⟩ := h
  have hproc : ∀ p, p ≠ 0 → (boot ncpu k d avail).proc p = .empty :=
    fun p hp => by simp [boot, hp]
  have hthread : ∀ u : Slot, u ≠ (0, 0) → (boot ncpu k d avail).thread u = .empty :=
    fun u hu => by simp [boot, hu]
  have hfirst : ∀ {u}, ((boot ncpu k d avail).thread u).state.live = true → u = (0, 0) := by
    intro u hu
    by_contra hne
    rw [hthread u hne] at hu
    cases hu
  refine ⟨⟨fun hc => ?_, fun hc => ?_, fun hu => ?_, fun {p} hp => ?_, fun {p} hp => ?_,
    fun {p} hp => ?_⟩, fun _ => keeps_forkret, fun _ => .of_idle rfl rfl, fun _ _ hg => ?_,
    fun _ _ _ hg => ?_⟩
  · cases hc
  · cases hc
  · rw [hfirst hu]
    rfl
  · by_cases hp0 : p = 0
    · subst hp0
      rfl
    · rw [hproc p hp0] at hp
      cases hp
  · by_cases hp0 : p = 0
    · subst hp0
      exact ⟨0, rfl⟩
    · rw [hproc p hp0] at hp
      cases hp
  · by_cases hp0 : p = 0
    · subst hp0
      cases hp
    · rw [hproc p hp0]
      rfl
  · cases hg
  · cases hg

/-- **The invariant holds in every state that orderly steps reach.** -/
theorem inv_of_reach (h : Reach step Orderly Booted S) : ∃ G, Inv S G := by
  refine Reach.invariant (I := fun S => ∃ G, Inv S G) (fun S hS => ⟨_, .of_booted hS⟩) ?_ h
  rintro S a S' ⟨G, hG⟩ hok hs
  obtain ⟨G', hm⟩ := Moves.of_step G hs
  exact ⟨G', hG.step hok hm⟩

end Xv6.Proc
