import Xv6.Proc.Trace

/-!
# The life cycle of processes and threads

`proc.c` and `kthread.c` keep the state of a process apart from the states of its
threads.  What ties them together is nowhere written down; `Inv` says what it is, for
runs in which

* a thread that calls `kthread_exit` is not the last of its process, and
* when a process comes to the end of `exit`, none of its other threads is running on
  another processor

(`Orderly`).  Then a thread that is neither unused nor a zombie belongs to a process
that is ready, and a ready process has such a thread; a process that is being set up has
no threads of that kind and is in the hands of one thread only, and so is a thread that
is being set up; and every thread that can run has the rest of some call before it.

Both conditions are needed: where either fails, a thread of a zombie process runs on.
-/

namespace Xv6.Proc

open Function Transition Kernel

variable {ncpu : ℕ}

namespace RunState

/-- Neither `UNUSED` nor `ZOMBIE`. -/
@[simp] def live : RunState → Bool
  | .unused | .zombie => false
  | _ => true

/-- `RUNNABLE`, `RUNNING` or `SLEEPING`. -/
@[simp] def active : RunState → Bool
  | .sleeping | .runnable | .running => true
  | _ => false

theorem live_of_active {r : RunState} (h : r.active = true) : r.live = true := by
  cases r <;> simp_all

end RunState

theorem Entry.isReady_iff (e : Entry) :
    e.isReady = true ↔ e.state = .runnable ∨ e.state = .running := by
  simp [Entry.isReady]

theorem Entry.live_of_isReady {e : Entry} (h : e.isReady = true) : e.state.live = true := by
  obtain h | h := e.isReady_iff.mp h <;> simp [h]

theorem Entry.isReady_congr {e e' : Entry} (h : e'.state = e.state) : e'.isReady = e.isReady := by
  simp [Entry.isReady, h]

namespace Kernel

/-- The process has a thread besides `s` that is neither unused nor a zombie. -/
def hasOthers (S : Kernel ncpu) (s : Slot) : Bool :=
  (List.finRange nthread).any fun t => t != s.2 && (S.thread (s.1, t)).state.live

/-- A processor runs a thread of the process besides `s`. -/
def siblingRuns (S : Kernel ncpu) (s : Slot) : Bool :=
  (List.finRange ncpu).any fun c => (S.cpu c).thread.any fun u => u.1 == s.1 && u != s

/-- The operation that the thread on a processor performs next. -/
def nextOp (S : Kernel ncpu) (c : Fin ncpu) : Option (Slot × KOp) :=
  match (S.cpu c).thread with
  | none => none
  | some s =>
    match S.code s with
    | .ret _ => none
    | .vis e _ => some (s, e)

theorem nextOp_eq {S : Kernel ncpu} {c : Fin ncpu} {s : Slot} {e : KOp} {k : e.Ans → KProg Unit}
    (hc : (S.cpu c).thread = some s) (hcode : S.code s = .vis e k) :
    S.nextOp c = some (s, e) := by
  simp [nextOp, hc, hcode]

theorem nextOp_iff {S : Kernel ncpu} {c : Fin ncpu} {s : Slot} {e : KOp} :
    S.nextOp c = some (s, e) ↔ (S.cpu c).thread = some s ∧ ∃ k, S.code s = .vis e k := by
  constructor
  · intro h
    unfold nextOp at h
    split at h
    · cases h
    · rename_i hc
      split at h
      · cases h
      · rename_i hcode
        cases h
        exact ⟨hc, _, hcode⟩
  · rintro ⟨hc, k, hcode⟩
    exact nextOp_eq hc hcode

end Kernel

/-- Test for `Orderly`. -/
def Kernel.orderly (S : Kernel ncpu) : Act ncpu → Bool
  | .run c _ =>
    match S.nextOp c with
    | some (s, .threadExit) => S.hasOthers s
    | some (s, .exitDone) => !S.siblingRuns s
    | _ => true
  | _ => true

/-- The steps in which no process dies under a thread that goes on: the last thread of a
process does not call `kthread_exit`, and `exit` does not end while another thread of the
process is running. -/
def Orderly (S : Kernel ncpu) (a : Act ncpu) : Prop := S.orderly a = true

instance (S : Kernel ncpu) (a : Act ncpu) : Decidable (Orderly S a) :=
  inferInstanceAs (Decidable (S.orderly a = true))

namespace Orderly

variable {S : Kernel ncpu} {c : Fin ncpu} {s : Slot} {ch : Choice}

theorem hasOthers {e : KOp} {k : e.Ans → KProg Unit} (h : Orderly S (.run c ch))
    (hc : (S.cpu c).thread = some s) (hcode : S.code s = .vis e k) (he : e = .threadExit) :
    S.hasOthers s = true := by
  subst he
  simpa only [Orderly, orderly, nextOp_eq hc hcode] using h

theorem alone {k : Empty → KProg Unit} (h : Orderly S (.run c ch))
    (hc : (S.cpu c).thread = some s) (hcode : S.code s = .vis .exitDone k) :
    S.siblingRuns s = false := by
  simpa only [Orderly, orderly, nextOp_eq hc hcode, Bool.not_eq_true'] using h

end Orderly

/-- What holds of the tables. -/
structure Tables (S : Kernel ncpu) : Prop where
  running : ∀ {c s}, (S.cpu c).thread = some s → (S.thread s).state = .running
  alone : ∀ {c c' s}, (S.cpu c).thread = some s → (S.cpu c').thread = some s → c = c'
  /-- A thread that is neither unused nor a zombie belongs to a ready process. -/
  ready : ∀ {s}, (S.thread s).state.live = true → (S.proc s.1).isReady = true
  row : ∀ {p}, (S.proc p).state.live = true → (S.proc p).threads = true
  /-- A process that has been set up and is not a zombie has a thread. -/
  peopled : ∀ {p}, (S.proc p).state.active = true → ∃ t, (S.thread (p, t)).state.live = true
  orphan : ∀ {p}, (S.proc p).state = .unused → (S.proc p).parent = none

/-- What thread `s` knows is so: the process and the thread that it is setting up are as
far as it thinks. -/
structure Owns (S : Kernel ncpu) (s : Slot) (g : Ctx) : Prop where
  embryo : ∀ {q st}, g.np = some (q, st) → (S.proc q).state = .embryo
  parent : ∀ {q st}, g.np = some (q, st) →
    (S.proc q).parent = if st = .child then some s.1 else none
  code : ∀ {q st}, g.np = some (q, st) → st ≠ .found → st ≠ .stack → S.code (q, 0) = forkret
  thread : ∀ {t b}, g.nt = some (t, b) → (S.thread (s.1, t)).state = .embryo
  threadCode : ∀ {t}, g.nt = some (t, true) → S.code (s.1, t) = forkret

/-- The rest of a thread's code keeps to the discipline, and leaves the kernel with nothing
in its hands. -/
def Finishes (p : KProg Unit) (g : Ctx) : Prop := p.Safe kernelRules (fun _ g' => g' = .start) g

/-- **The invariant of the process and thread tables.** -/
structure Inv (S : Kernel ncpu) (G : Slot → Ctx) : Prop extends Tables S where
  /-- The code of a thread that can run keeps to the discipline. -/
  safe : ∀ {s}, (S.thread s).state.active = true → Finishes (S.code s) (G s)
  owns : ∀ {s}, (S.thread s).state.active = true → Owns S s (G s)
  npInj : ∀ {s u q st st'}, (S.thread s).state.active = true → (S.thread u).state.active = true →
    (G s).np = some (q, st) → (G u).np = some (q, st') → s = u
  ntInj : ∀ {s u t b b'}, (S.thread s).state.active = true → (S.thread u).state.active = true →
    s.1 = u.1 → (G s).nt = some (t, b) → (G u).nt = some (t, b') → s = u

variable {S S' : Kernel ncpu} {G : Slot → Ctx} {c : Fin ncpu} {s : Slot} {g : Ctx}

/-! ## Tables -/

namespace Quiet

theorem live_eq (h : Quiet S S') (s : Slot) :
    (S'.thread s).state.live = (S.thread s).state.live := by
  obtain h | ⟨h₁, h₂⟩ := h.thread s
  · rw [h]
  · simp [h₁, h₂]

theorem active_eq (h : Quiet S S') (s : Slot) :
    (S'.thread s).state.active = (S.thread s).state.active := by
  obtain h | ⟨h₁, h₂⟩ := h.thread s
  · rw [h]
  · simp [h₁, h₂]

theorem eq_of_ne_sleeping (h : Quiet S S') {s : Slot} (hs : (S.thread s).state ≠ .sleeping) :
    (S'.thread s).state = (S.thread s).state :=
  (h.thread s).resolve_right fun h => hs h.1

end Quiet

namespace Tables

theorem quiet (h : Tables S) (hq : Quiet S S') : Tables S' where
  running hc := by
    have hs := h.running ((hq.cpu _).symm.trans hc)
    rw [hq.eq_of_ne_sleeping (by simp [hs]), hs]
  alone hc hc' := h.alone ((hq.cpu _).symm.trans hc) ((hq.cpu _).symm.trans hc')
  ready hs := by
    rw [Entry.isReady_congr (hq.state _)]
    exact h.ready (hq.live_eq _ ▸ hs)
  row hp := by
    rw [hq.threads]
    exact h.row (hq.state _ ▸ hp)
  peopled hp := by
    rw [hq.state] at hp
    obtain ⟨t, ht⟩ := h.peopled hp
    exact ⟨t, (hq.live_eq _).trans ht⟩
  orphan hp := by
    rw [hq.parent]
    exact h.orphan (hq.state _ ▸ hp)

theorem of_same (h : Tables S) (hproc : S'.proc = S.proc)
    (hstate : ∀ u, (S'.thread u).state = (S.thread u).state)
    (hcpu : ∀ c, (S'.cpu c).thread = (S.cpu c).thread) : Tables S' where
  running hc := (hstate _).trans (h.running ((hcpu _).symm.trans hc))
  alone hc hc' := h.alone ((hcpu _).symm.trans hc) ((hcpu _).symm.trans hc')
  ready hs := hproc ▸ h.ready (hstate _ ▸ hs)
  row hp := by
    rw [hproc] at hp ⊢
    exact h.row hp
  peopled hp := by
    rw [hproc] at hp
    obtain ⟨t, ht⟩ := h.peopled hp
    exact ⟨t, (congrArg RunState.live (hstate _)).trans ht⟩
  orphan hp := by
    rw [hproc] at hp ⊢
    exact h.orphan hp

theorem ne_of_live (h : Tables S) {q : PId} (hq : (S.proc q).isReady = false)
    (hs : (S.thread s).state.live = true) : s.1 ≠ q := by
  rintro rfl
  exact Bool.false_ne_true (hq.symm.trans (h.ready hs))

theorem running_live (h : Tables S) (hc : (S.cpu c).thread = some s) :
    (S.thread s).state.live = true := by
  simp [h.running hc]

theorem offstage (h : Tables S) {q : PId} (hq : (S.proc q).isReady = false)
    (hproc : ∀ p, p ≠ q → S'.proc p = S.proc p)
    (hthread : ∀ u : Slot, u.1 ≠ q → S'.thread u = S.thread u) (hcpu : S'.cpu = S.cpu)
    (hq' : (S'.proc q).state.active = false)
    (hlive : ∀ t, (S'.thread (q, t)).state.live = false)
    (hrow : (S'.proc q).state.live = true → (S'.proc q).threads = true)
    (horphan : (S'.proc q).state = .unused → (S'.proc q).parent = none) : Tables S' where
  running {c s} hc := by
    rw [hcpu] at hc
    rw [hthread s (h.ne_of_live hq (h.running_live hc))]
    exact h.running hc
  alone hc hc' := by
    rw [hcpu] at hc hc'
    exact h.alone hc hc'
  ready {s} hs := by
    have hne : s.1 ≠ q := by
      rintro rfl
      exact Bool.false_ne_true ((hlive s.2).symm.trans hs)
    rw [hproc _ hne]
    exact h.ready (hthread s hne ▸ hs)
  row {p} hp := by
    by_cases hpq : p = q
    · subst hpq
      exact hrow hp
    · rw [hproc p hpq] at hp ⊢
      exact h.row hp
  peopled {p} hp := by
    have hne : p ≠ q := by
      rintro rfl
      exact Bool.false_ne_true (hq'.symm.trans hp)
    rw [hproc p hne] at hp
    obtain ⟨t, ht⟩ := h.peopled hp
    exact ⟨t, by rw [hthread (p, t) hne]; exact ht⟩
  orphan {p} hp := by
    by_cases hpq : p = q
    · subst hpq
      exact horphan hp
    · rw [hproc p hpq] at hp ⊢
      exact h.orphan hp

theorem on_of_left (h : Tables S) (hc : (S.cpu c).thread = some s) (hcpu : (S'.cpu c).thread = none)
    (hcpu' : ∀ d, d ≠ c → S'.cpu d = S.cpu d) {d : Fin ncpu} {u : Slot}
    (hd : (S'.cpu d).thread = some u) : (S.cpu d).thread = some u ∧ u ≠ s := by
  have hdc : d ≠ c := by
    rintro rfl
    rw [hcpu] at hd
    cases hd
  rw [hcpu' d hdc] at hd
  refine ⟨hd, ?_⟩
  rintro rfl
  exact hdc (h.alone hd hc)

theorem leave (h : Tables S) (hc : (S.cpu c).thread = some s) (hproc : S'.proc = S.proc)
    (hs : (S'.thread s).state.live = true)
    (hthread : ∀ u, u ≠ s → (S'.thread u).state = (S.thread u).state)
    (hcpu : (S'.cpu c).thread = none) (hcpu' : ∀ d, d ≠ c → S'.cpu d = S.cpu d) : Tables S' := by
  have hlive : ∀ u, (S'.thread u).state.live = (S.thread u).state.live := by
    intro u
    by_cases hu : u = s
    · subst hu
      rw [hs, h.running_live hc]
    · rw [hthread u hu]
  have hon {d u} := h.on_of_left (d := d) (u := u) hc hcpu hcpu'
  exact {
    running := fun hd => (hthread _ (hon hd).2).trans (h.running (hon hd).1)
    alone := fun hd hd' => h.alone (hon hd).1 (hon hd').1
    ready := fun hu => hproc ▸ h.ready (hlive _ ▸ hu)
    row := fun hp => by
      rw [hproc] at hp ⊢
      exact h.row hp
    peopled := fun hp => by
      rw [hproc] at hp
      obtain ⟨t, ht⟩ := h.peopled hp
      exact ⟨t, (hlive _).trans ht⟩
    orphan := fun hp => by
      rw [hproc] at hp ⊢
      exact h.orphan hp }

end Tables

/-! ## What the threads own -/

namespace Owns

theorem of_ctx (h : Owns S s g) {g' : Ctx} (hnp : g'.np = g.np) (hnt : g'.nt = g.nt) :
    Owns S s g' where
  embryo hq := h.embryo (hnp ▸ hq)
  parent hq := h.parent (hnp ▸ hq)
  code hq := h.code (hnp ▸ hq)
  thread ht := h.thread (hnt ▸ ht)
  threadCode ht := h.threadCode (hnt ▸ ht)

theorem of_same (h : Owns S s g)
    (hq : ∀ q st, g.np = some (q, st) → (S'.proc q).state = (S.proc q).state ∧
      (S'.proc q).parent = (S.proc q).parent ∧ S'.code (q, 0) = S.code (q, 0))
    (ht : ∀ t b, g.nt = some (t, b) → (S'.thread (s.1, t)).state = (S.thread (s.1, t)).state ∧
      S'.code (s.1, t) = S.code (s.1, t)) : Owns S' s g where
  embryo hg := (hq _ _ hg).1.trans (h.embryo hg)
  parent hg := (hq _ _ hg).2.1.trans (h.parent hg)
  code hg h₁ h₂ := (hq _ _ hg).2.2.trans (h.code hg h₁ h₂)
  thread hg := (ht _ _ hg).1.trans (h.thread hg)
  threadCode hg := (ht _ _ hg).2.trans (h.threadCode hg)

theorem of_idle (hnp : g.np = none) (hnt : g.nt = none) : Owns S s g := by
  constructor <;> simp [hnp, hnt]

theorem quiet (h : Owns S s g) (hq : Quiet S S') : Owns S' s g := by
  refine h.of_same (fun q _ _ => ⟨hq.state q, hq.parent q, by rw [hq.code]⟩) fun t b hg => ?_
  exact ⟨hq.eq_of_ne_sleeping (by simp [h.thread hg]), by rw [hq.code]⟩

theorem ne_first (h : Owns S s g) (ht : Tables S) {u : Slot} (hu : (S.thread u).state.live = true)
    {q : PId} {st : Stage} (hg : g.np = some (q, st)) : u.1 ≠ q :=
  ht.ne_of_live (by simp [Entry.isReady, h.embryo hg]) hu

theorem setCode (h : Owns S s g) (ht : Tables S) {u : Slot} (hu : (S.thread u).state.active = true)
    (p : KProg Unit) : Owns { S with code := update S.code u p } s g := by
  refine h.of_same (fun q st hg => ⟨rfl, rfl, update_of_ne ?_ _ _⟩)
    fun t b hg => ⟨rfl, update_of_ne ?_ _ _⟩
  · rintro rfl
    exact h.ne_first ht (RunState.live_of_active hu) hg rfl
  · rintro rfl
    simp [h.thread hg] at hu

end Owns

namespace Inv

theorem owner_unique (h : Inv S G) (hs : (S.thread s).state.active = true) {q : PId} {st : Stage}
    (hg : (G s).np = some (q, st)) {u : Slot} (hu : u ≠ s)
    (hu' : (S.thread u).state.active = true) (st' : Stage) : (G u).np ≠ some (q, st') :=
  fun hgu => hu (h.npInj hu' hs hgu hg)

theorem unowned (h : Inv S G) {q : PId} (hq : (S.proc q).state ≠ .embryo) {u : Slot}
    (hu : (S.thread u).state.active = true) (st : Stage) : (G u).np ≠ some (q, st) :=
  fun hg => hq ((h.owns hu).embryo hg)

theorem same (h : Inv S G) (ht : Tables S')
    (hact : ∀ u, (S'.thread u).state.active = true →
      (S.thread u).state.active = true ∧ S'.code u = S.code u)
    (hown : ∀ u, (S'.thread u).state.active = true → Owns S' u (G u)) : Inv S' G where
  toTables := ht
  safe hu := (hact _ hu).2 ▸ h.safe (hact _ hu).1
  owns hu := hown _ hu
  npInj hs hu := h.npInj (hact _ hs).1 (hact _ hu).1
  ntInj hs hu := h.ntInj (hact _ hs).1 (hact _ hu).1

theorem quiet (h : Inv S G) (hq : Quiet S S') : Inv S' G :=
  h.same (h.toTables.quiet hq) (fun u hu => ⟨hq.active_eq u ▸ hu, by rw [hq.code]⟩)
    fun u hu => (h.owns (hq.active_eq u ▸ hu)).quiet hq

theorem advance (h : Inv S G) (ht : Tables S') (hs : (S'.thread s).state.active = true)
    (hact : ∀ u, u ≠ s → (S'.thread u).state.active = true →
      (S.thread u).state.active = true ∧ S'.code u = S.code u)
    (hown : ∀ u, u ≠ s → (S'.thread u).state.active = true → Owns S' u (G u))
    {p : KProg Unit} (hp : Finishes p g) (hg : Owns S' s g)
    (hnp : ∀ q st, g.np = some (q, st) →
      ∀ u, u ≠ s → (S.thread u).state.active = true → ∀ st', (G u).np ≠ some (q, st'))
    (hnt : ∀ t b, g.nt = some (t, b) →
      ∀ u, u ≠ s → (S.thread u).state.active = true → u.1 = s.1 → ∀ b', (G u).nt ≠ some (t, b')) :
    Inv { S' with code := update S'.code s p } (update G s g) where
  toTables := ⟨ht.running, ht.alone, ht.ready, ht.row, ht.peopled, ht.orphan⟩
  safe {u} hu := by
    by_cases hus : u = s
    · subst hus
      simpa using hp
    · simpa [hus, (hact u hus hu).2] using h.safe (hact u hus hu).1
  owns {u} hu := by
    by_cases hus : u = s
    · subst hus
      simpa using hg.setCode ht hs p
    · simpa [hus] using (hown u hus hu).setCode ht hs p
  npInj {u v q st st'} hu hv hgu hgv := by
    by_cases hus : u = s <;> by_cases hvs : v = s
    · rw [hus, hvs]
    · subst hus
      simp only [update_self, update_of_ne hvs] at hgu hgv
      exact absurd hgv (hnp _ _ hgu v hvs (hact v hvs hv).1 _)
    · subst hvs
      simp only [update_self, update_of_ne hus] at hgu hgv
      exact absurd hgu (hnp _ _ hgv u hus (hact u hus hu).1 _)
    · simp only [update_of_ne hus, update_of_ne hvs] at hgu hgv
      exact h.npInj (hact u hus hu).1 (hact v hvs hv).1 hgu hgv
  ntInj {u v t b b'} hu hv huv hgu hgv := by
    by_cases hus : u = s <;> by_cases hvs : v = s
    · rw [hus, hvs]
    · subst hus
      simp only [update_self, update_of_ne hvs] at hgu hgv
      exact absurd hgv (hnt _ _ hgu v hvs (hact v hvs hv).1 huv.symm _)
    · subst hvs
      simp only [update_self, update_of_ne hus] at hgu hgv
      exact absurd hgu (hnt _ _ hgv u hus (hact u hus hu).1 huv _)
    · simp only [update_of_ne hus, update_of_ne hvs] at hgu hgv
      exact h.ntInj (hact u hus hu).1 (hact v hvs hv).1 huv hgu hgv

end Inv

end Xv6.Proc
