import Xv6.Proc.Marks

/-!
# Entries of the process table, and their parents

What an answered operation can do to an entry of the process table is little: `fork` takes
an unused one, gives it a parent and makes it runnable, or gives it back; and `wait` frees a
zombie.  `Fate` lists these, so that facts about states and parents are proved by five cases
and not by as many as there are operations.

The one fact proved here is that a child that is being set up is in the hands of a thread of
its parent (`Adopted`).  It is what `exit` relies on when it goes through the children: such
a thread is gone after the `exit`, and the child with it.
-/

namespace Xv6.Proc

open Transition Kernel

variable {ncpu : ℕ} {S S' : Kernel ncpu} {G : Slot → Ctx} {c : Fin ncpu} {s : Slot}
  {ch : Choice} {e : KOp} {k : e.Ans → KProg Unit} {r : e.Ans}

/-- What becomes of an entry when thread `s` performs an operation. -/
inductive Fate (S S' : Kernel ncpu) (s : Slot) (e : KOp) (z : PId) : Prop where
  | same (hs : (S'.proc z).state = (S.proc z).state) (hp : (S'.proc z).parent = (S.proc z).parent)
  | taken (hs : (S.proc z).state = .unused) (hp : (S'.proc z).parent = none)
      (hs' : (S'.proc z).state = .embryo) (he : e = .procAlloc)
  | adopted (he : e = .forkThread z) (hs : (S.proc z).state = .embryo)
      (hp : (S'.proc z).parent = some s.1) (hs' : (S'.proc z).state = .embryo)
  | launched (he : e = .forkDone z) (hs : (S.proc z).state = .embryo)
      (hp : (S'.proc z).parent = (S.proc z).parent) (hs' : (S'.proc z).state = .runnable)
  | freed (hs : (S.proc z).state = .embryo ∨ (S.proc z).state = .zombie)
      (hp : (S'.proc z).parent = none) (hs' : (S'.proc z).state = .unused)
      (he : (S.proc z).state = .zombie → e = .wait)

theorem Fate.entry {q : PId} (hq : Fate S S' s e q) (hproc : ∀ z, z ≠ q → S'.proc z = S.proc z)
    (z : PId) : Fate S S' s e z := by
  by_cases hz : z = q
  · rw [hz]
    exact hq
  · exact .same (by rw [hproc z hz]) (by rw [hproc z hz])

theorem Fate.zombie {z : PId} (h : Fate S S' s e z) (hz : (S'.proc z).state = .zombie) :
    (S.proc z).state = .zombie ∧ (S'.proc z).parent = (S.proc z).parent := by
  cases h with
  | same hs hp => exact ⟨hs.symm.trans hz, hp⟩
  | taken _ _ hs' | adopted _ _ _ hs' | launched _ _ _ hs' | freed _ _ hs' =>
    cases hs'.symm.trans hz

theorem Answered.fate (ha : Answered S S' G c s ch e k r) (z : PId) : Fate S S' s e z := by
  have hperf := ha.perf
  have hpre := ha.pre
  have hown := ha.owns
  by_cases hq : e.quiet = true
  · have hquiet := (perform_frame hperf).quiet hq
    exact .same (hquiet.state z) (hquiet.parent z)
  cases e with
  | procAlloc =>
    cases hperf
    unfold procAlloc
    split
    · exact .same rfl rfl
    · rename_i q hq'
      have hunused : (S.proc q).state = .unused := by simpa using first?_eq_some hq'
      refine Fate.entry (q := q) (.taken hunused ?_ ?_ rfl) (fun z hz => ?_) z
      · simpa using ha.inv.orphan hunused
      · simp
      · simp [hz]
  | stackAlloc q =>
    have hembryo := hown.embryo hpre
    have hparent : (S.proc q).parent = none := by simpa using hown.parent hpre
    obtain ⟨-, rfl⟩ | ⟨-, page, rfl, -⟩ := allocOr_done hperf
    · exact .entry (q := q) (.freed (.inl hembryo) (by simpa using hparent) (by simp)
        (by simp [hembryo])) (fun z hz => by simp [hz]) z
    · exact .entry (q := q) (.same (by simp) (by simp)) (fun z hz => by simp [hz]) z
  | forkFail q =>
    have hparent : (S.proc q).parent = none := by simpa using hown.parent hpre
    obtain ⟨page, rfl, -⟩ := forkFail_done hperf
    exact .entry (q := q) (.freed (.inl (hown.embryo hpre)) (by simpa using hparent) (by simp)
      (by simp [hown.embryo hpre])) (fun z hz => by simp [hz]) z
  | forkThread q =>
    cases hperf
    refine .entry (q := q) (.adopted rfl (hown.embryo hpre) ?_ ?_) (fun z hz => ?_) z
    · simp [Kernel.forkThread]
    · simpa [Kernel.forkThread] using hown.embryo hpre
    · simp [Kernel.forkThread, hz]
  | forkDone q =>
    cases hperf
    exact .entry (q := q) (.launched rfl (hown.embryo hpre) (by simp) (by simp))
      (fun z hz => by simp [hz]) z
  | wait =>
    obtain ⟨q, page, -, -, -, -, hz, rfl⟩ | ⟨-, -, -, rfl⟩ := wait_cases hperf
    · exact .entry (q := q) (.freed (.inr hz) (by simp) (by simp) fun _ => rfl) (fun z hz => by simp [hz]) z
    · exact .same rfl rfl
  | threadAlloc =>
    cases (withRow_done hperf).2
    unfold threadAlloc
    split <;> exact .same rfl rfl
  | procInit | threadInit | threadReady =>
    cases hperf
    exact .same rfl rfl
  | threadExit => exact ha.not_last.elim
  | exitDone => exact r.elim
  | _ => exact absurd rfl hq

theorem next_np {g : Ctx} (hpre : e.pre g) {z : PId} {st : Stage} (hg : g.np = some (z, st))
    (r : e.Ans) :
    (∃ st', (e.next r g).np = some (z, st')) ∨
      e = .stackAlloc z ∨ e = .forkFail z ∨ e = .forkDone z := by
  by_cases hq : e.quiet = true
  · by_cases hcopy : ∃ q, e = .copyuvm q
    · obtain ⟨q, rfl⟩ := hcopy
      cases hg.symm.trans hpre
      exact .inl ⟨_, rfl⟩
    · rw [(next_owned hq (fun q hq => hcopy ⟨q, hq⟩) r g).1]
      exact .inl ⟨st, hg⟩
  cases e with
  | procAlloc => cases hg.symm.trans hpre
  | stackAlloc q | forkFail q | forkDone q =>
    cases hg.symm.trans hpre
    simp
  | procInit q | forkThread q =>
    cases hg.symm.trans hpre
    exact .inl ⟨_, rfl⟩
  | threadAlloc | threadInit | threadReady | threadExit | exitDone | wait => exact .inl ⟨st, hg⟩
  | _ => exact absurd rfl hq

theorem exitDone_idle (hperf : S.perform c s ch .exitDone = some (.gone S')) {z : PId}
    (hz : z ≠ s.1) (hpar : (S.proc z).parent = some s.1) (hrow : (S.proc z).threads = true)
    (hidle : S.rowIdle z = true) : (S'.proc z).state = .zombie := by
  cases (withRow_gone hperf).2
  have hidle' : (S.wakeup1 ((S.proc s.1).parent.elim .null .proc)).rowIdle z = true := by
    rw [wakeup1_rowIdle]
    exact hidle
  have hpar' : ((S.wakeup1 ((S.proc s.1).parent.elim .null .proc)).proc z).parent = some s.1 := hpar
  have hrow' : ((S.wakeup1 ((S.proc s.1).parent.elim .null .proc)).proc z).threads = true := hrow
  simp only [Kernel.leave, exitTables, setCpu_proc, setThread_proc, setProc_ne _ hz, reparent,
    hpar', hrow', hidle', if_true]

/-- A child that is being set up is in the hands of a thread of its parent. -/
def Adopted (S : Kernel ncpu) (G : Slot → Ctx) : Prop :=
  ∀ z p, (S.proc z).state = .embryo → (S.proc z).parent = some p →
    ∃ u : Slot, u.1 = p ∧ (S.thread u).state.active = true ∧ ∃ st, (G u).np = some (z, st)

namespace Adopted

theorem same (h : Adopted S G) (hp : S'.proc = S.proc)
    (hact : ∀ u, (S.thread u).state.active = true → (S'.thread u).state.active = true) :
    Adopted S' G := by
  intro z p hz hpar
  rw [hp] at hz hpar
  obtain ⟨u, hu, hact', hst⟩ := h z p hz hpar
  exact ⟨u, hu, hact u hact', hst⟩

theorem of_done (h : Adopted S G) (ha : Answered S S' G c s ch e k r) :
    Adopted { S' with code := Function.update S'.code s (k r) } (learn G s e r) := by
  have hperf := ha.perf
  have hs := ha.active
  have hpre := ha.pre
  have hnew : ∀ {u}, (S.thread u).state.active = true → e.starts s ≠ some u :=
    fun hu hst => Bool.false_ne_true ((ha.inv.starts_not_active ha.cpu hpre hst).symm.trans hu)
  have hact : ∀ {u}, (S.thread u).state.active = true → (S'.thread u).state.active = true :=
    fun hu => (ha.thread (hnew hu)).active_iff.mpr hu
  intro z p hz hpar
  dsimp only at hz hpar
  cases ha.fate z with
  | same hstate hparent =>
    rw [hstate] at hz
    rw [hparent] at hpar
    obtain ⟨u, hup, hu, st, hst⟩ := h z p hz hpar
    refine ⟨u, hup, hact hu, ?_⟩
    by_cases hus : u = s
    · subst hus
      rw [learn_self G r (hnew hu)]
      obtain hnext | rfl | rfl | rfl := next_np hpre hst r
      · exact hnext
      -- the child of somebody has a stack already, and an image
      · cases hpar.symm.trans ((ha.inv.owns hs).parent hpre)
      · cases hpar.symm.trans ((ha.inv.owns hs).parent hpre)
      · cases hperf
        simp [hz] at hstate
    · rw [learn_ne G r hus (hnew hu)]
      exact ⟨st, hst⟩
  | taken _ hp => cases hp.symm.trans hpar
  | adopted hfork _ hp _ =>
    subst hfork
    refine ⟨s, Option.some.inj (hp.symm.trans hpar), hact hs, .child, ?_⟩
    rw [learn_self G r (hnew hs)]
    rfl
  | launched _ _ _ hs' | freed _ _ hs' => cases hs'.symm.trans hz

theorem of_exit (h : Adopted S G) (hi : Inv S G)
    (hperf : S.perform c s ch .exitDone = some (.gone S')) : Adopted S' G := by
  have hex := (exitDone_gone hperf).1
  intro z p hz hpar
  have hzs : z ≠ s.1 := by
    rintro rfl
    cases hex.state.symm.trans hz
  by_cases hold : (S.proc z).parent = some s.1
  · -- an entry that is being set up has no thread, and is made a zombie
    exfalso
    obtain ⟨st, he, rfl | ⟨rfl, -⟩⟩ := hex.child hzs hold
    · rw [he] at hz
      have hidle : S.rowIdle z = true := by
        refine rowIdle_iff.mpr fun t => ?_
        exact hi.not_live (Entry.not_ready_of_embryo hz) t
      have hrow : (S.proc z).threads = true := hi.row (by simp [show (S.proc z).state = .embryo from hz])
      have hzombie := exitDone_idle hperf hzs hold hrow hidle
      rw [he] at hzombie
      cases hz.symm.trans hzombie
    · simp [he] at hz
  · rw [hex.other hzs hold] at hz hpar
    obtain ⟨u, hup, hu, hst⟩ := h z p hz hpar
    have hus : u.1 ≠ s.1 := fun hus => hold (by rw [hpar, ← hup, hus])
    refine ⟨u, hup, ?_, hst⟩
    obtain hsame | ⟨-, hrun⟩ := hex.wake hus
    · rw [hsame]
      exact hu
    · simp [hrun]

theorem of_threadExit (h : Adopted S G) (hi : Inv S G) (hc : (S.cpu c).thread = some s)
    {k : Unit → KProg Unit} (hcode : S.code s = .vis .threadExit k)
    (hperf : S.perform c s ch .threadExit = some (.gone S')) : Adopted S' G := by
  have hproc : S'.proc = S.proc := by
    obtain rfl := threadExit_gone hperf
    rfl
  have hidle : (G s).np = none := (hi.pre_of_code hc hcode).1.np
  intro z p hz hpar
  rw [hproc] at hz hpar
  obtain ⟨u, hup, hu, st, hst⟩ := h z p hz hpar
  have hus : u ≠ s := by
    rintro rfl
    rw [hidle] at hst
    cases hst
  exact ⟨u, hup, (thread_of_gone hperf hus (.inl rfl)).active_iff.mpr hu, st, hst⟩

/-- **An orderly step keeps children in the hands of their parents.** -/
theorem step {G' : Slot → Ctx} {a : Act ncpu} (h : Adopted S G) (hi : Inv S G) (hok : Orderly S a)
    (hm : Moves S G a S' G') : Adopted S' G' := by
  cases hm with
  | schedule hc hrun =>
    refine h.same rfl fun u hu => ?_
    rename_i c s
    by_cases hus : u = s
    · simp [dispatch, hus]
    · simpa [dispatch, hus] using hu
  | done hc hcode hperf => exact h.of_done ⟨hi, hc, hcode, hperf, hok.hasOthers hc hcode⟩
  | sleep hc hcode hperf =>
    refine h.same rfl fun u hu => ?_
    rename_i s _ _ _ _
    by_cases hus : u = s
    · simp [sleepOn, Kernel.leave, hus]
    · simpa [sleepOn, Kernel.leave, hus] using hu
  | gone hc hcode hperf =>
    obtain rfl | rfl := gone_cases hperf
    · exact h.of_threadExit hi hc hcode hperf
    · exact h.of_exit hi hperf
  | enter hc hcode =>
    rename_i c s t
    have hstart := hi.start_of_code hc hcode
    rw [← hstart, Function.update_eq_self]
    exact h.same rfl fun u hu => hu
  | tick hc hcode hs =>
    refine h.same rfl fun u hu => ?_
    rename_i s _ _ _
    by_cases hus : u = s
    · simp [yield, Kernel.leave, hus]
    · simpa [yield, Kernel.leave, hus] using hu
  | intr => exact h.same rfl fun u hu => by rwa [(quiet_wakeup1 S _).active_eq]

theorem of_booted (h : Booted S) (G : Slot → Ctx) : Adopted S G := by
  obtain ⟨k, d, avail, -, -, -, rfl⟩ := h
  intro z p _ hpar
  by_cases hz : z = 0 <;> simp [boot, hz, Entry.empty] at hpar

end Adopted

end Xv6.Proc
