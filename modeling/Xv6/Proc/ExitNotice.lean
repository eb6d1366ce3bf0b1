import Xv6.Proc.Wakeup
import Xv6.Proc.Descent

/-!
# Who hears of an exit

`wait` sleeps on its own process until a child is a zombie.  Two things make a zombie a
child of a process that sleeps there: `exit`, which wakes up the parent of the process
that exits, and the loop of `exit` that hands the children of that process over to `init`.
The loop says nothing to `init`, whether or not it hands over zombies.

Processes with one thread only are looked at here: no step creates, ends or joins a thread
(`SingleThreaded`).  Then the first slot of a row is the only one in use, `init` is ready and
nobody's child, nobody is their own parent, and a thread that sleeps in `wait` sleeps on its
process; this is the structure `Family`.
-/

namespace Xv6.Proc

open Function Transition Kernel

variable {ncpu : ℕ} {S S' : Kernel ncpu} {G : Slot → Ctx} {c : Fin ncpu} {s : Slot}

/-- The operations of `kthread_create`, `kthread_exit` and `kthread_join`. -/
def KOp.threaded : KOp → Bool
  | .threadAlloc | .threadInit _ _ | .threadReady _ | .threadExit | .threadJoin _ => true
  | _ => false

namespace Kernel

/-- Test for `SingleThreaded`. -/
def singleThreaded (S : Kernel ncpu) : Act ncpu → Bool
  | .run c _ =>
    match S.nextOp c with
    | some (_, e) => !e.threaded
    | none => true
  | _ => true

/-- The thread is asleep inside `wait`. -/
def inWait (S : Kernel ncpu) (u : Slot) : Bool :=
  match S.code u with
  | .vis .wait _ => (S.thread u).state == .sleeping
  | _ => false

/-- A thread of `init` is asleep inside `wait`. -/
def initWaits (S : Kernel ncpu) : Bool :=
  (List.finRange nthread).any fun t => S.inWait (S.initproc, t)

/-- The process has a child that is a zombie. -/
def hasZombie (S : Kernel ncpu) (p : PId) : Bool :=
  (List.finRange nproc).any fun q => (S.proc q).parent == some p && (S.proc q).state == .zombie

/-- Test for `Notifying`. -/
def notifying (S : Kernel ncpu) : Act ncpu → Bool
  | .run c _ =>
    match S.nextOp c with
    | some (s, .exitDone) =>
      (S.proc s.1).parent == some S.initproc || !S.initWaits || !S.hasZombie s.1
    | _ => true
  | _ => true

end Kernel

/-- The steps in which no thread is created, ended or joined. -/
def SingleThreaded (S : Kernel ncpu) (a : Act ncpu) : Prop := S.singleThreaded a = true

/-- The steps that hand no zombie over to `init` in its sleep: a process that comes to the
end of `exit` is a child of `init`, which is woken up then, or `init` is not asleep in
`wait`, or no child of the process is a zombie. -/
def Notifying (S : Kernel ncpu) (a : Act ncpu) : Prop := S.notifying a = true

/-- Single-threaded steps that notify. -/
def SoloNotifying (S : Kernel ncpu) (a : Act ncpu) : Prop := SingleThreaded S a ∧ Notifying S a

instance (S : Kernel ncpu) (a : Act ncpu) : Decidable (SingleThreaded S a) :=
  inferInstanceAs (Decidable (_ = true))

instance (S : Kernel ncpu) (a : Act ncpu) : Decidable (Notifying S a) :=
  inferInstanceAs (Decidable (_ = true))

instance (S : Kernel ncpu) (a : Act ncpu) : Decidable (SoloNotifying S a) :=
  inferInstanceAs (Decidable (_ ∧ _))

/-- No thread is asleep in `wait` while a child of its process is a zombie. -/
def NoLostExit (S : Kernel ncpu) : Prop :=
  ∀ u z, S.inWait u = true → (S.proc z).parent = some u.1 → (S.proc z).state ≠ .zombie

variable {u : Slot}

theorem inWait_iff :
    S.inWait u = true ↔ (S.thread u).state = .sleeping ∧ ∃ k, S.code u = .vis .wait k := by
  unfold inWait
  constructor
  · intro h
    split at h
    · rename_i k hk
      exact ⟨by simpa using h, k, hk⟩
    · cases h
  · rintro ⟨hs, k, hk⟩
    rw [hk, hs]
    rfl

theorem hasZombie_iff {p : PId} :
    S.hasZombie p = true ↔ ∃ q, (S.proc q).parent = some p ∧ (S.proc q).state = .zombie := by
  simp [hasZombie]

theorem initWaits_iff : S.initWaits = true ↔ ∃ t, S.inWait (S.initproc, t) = true := by
  simp [initWaits]

theorem SingleThreaded.not_threaded {ch : Choice} {e : KOp} {k : e.Ans → KProg Unit}
    (h : SingleThreaded S (.run c ch)) (hc : (S.cpu c).thread = some s)
    (hcode : S.code s = .vis e k) : e.threaded = false := by
  simpa only [SingleThreaded, singleThreaded, nextOp_eq hc hcode, Bool.not_eq_true'] using h

/-- What is known in runs of single-threaded processes. -/
structure Family (S : Kernel ncpu) (G : Slot → Ctx) : Prop where
  solo : ∀ {u}, (S.thread u).state.live = true → u.2 = 0
  ready : (S.proc S.initproc).isReady = true
  root : (S.proc S.initproc).parent = none
  self : ∀ z, (S.proc z).parent ≠ some z
  exits : ∀ {u}, (S.thread u).state.active = true → (G u).closing ≠ none → u.1 ≠ S.initproc
  chan : ∀ {u}, S.inWait u = true → (S.thread u).chan = .proc u.1

/-! ## Operations that are answered -/

theorem not_threadExit {e : KOp} (he : e.threaded = false) (S : Kernel ncpu) (s : Slot) :
    e = .threadExit → S.hasOthers s = true := by
  rintro rfl
  cases he

section Answered

variable {e : KOp} {k : e.Ans → KProg Unit} {ch : Choice} {r : e.Ans}

theorem Answered.inWait (ha : Answered S S' G c s ch e k r)
    (hu : Kernel.inWait { S' with code := update S'.code s (k r) } u = true) :
    S.inWait u = true := by
  obtain ⟨hsleep, k', hk⟩ := inWait_iff.mp hu
  dsimp only at hsleep hk
  have hst : e.starts s ≠ some u := by
    intro hst
    cases (starts_runnable ha.perf hst).symm.trans hsleep
  have hkept := ha.thread hst
  have hold : (S.thread u).state = .sleeping := by
    obtain hsame | ⟨-, hrun⟩ | ⟨-, hoff⟩ := hkept
    · exact hsame.symm.trans hsleep
    · cases hrun.symm.trans hsleep
    · simp [hsleep] at hoff
  have hus : u ≠ s := by
    rintro rfl
    cases (ha.inv.running ha.cpu).symm.trans hold
  have hcode' := ha.code_kept (u := u) (by simp [hold])
  rw [update_of_ne hus, hcode'] at hk
  exact inWait_iff.mpr ⟨hold, k', hk⟩

theorem NoLostExit.of_done (h : NoLostExit S) (ha : Answered S S' G c s ch e k r) :
    NoLostExit { S' with code := update S'.code s (k r) } := by
  intro u z hu hpar hz
  obtain ⟨hz', hpar'⟩ := (ha.fate z).zombie hz
  exact h u z (ha.inWait hu) (hpar'.symm.trans hpar) hz'

theorem Answered.closing (ha : Answered S S' G c s ch e k r)
    (hu : (S'.thread u).state.active = true) (hclose : (learn G s e r u).closing ≠ none) :
    (S.thread u).state.active = true ∧ (u = s ∧ e = .exitEnter ∨ (G u).closing ≠ none) := by
  by_cases hst : e.starts s = some u
  · rw [learn_starts G r hst] at hclose
    exact absurd rfl hclose
  refine ⟨(ha.thread hst).active_iff.mp hu, ?_⟩
  by_cases hus : u = s
  · subst hus
    rw [learn_self G r hst] at hclose
    by_cases hent : e = .exitEnter
    · exact .inl ⟨rfl, hent⟩
    · exact .inr fun hnone => hclose (next_closing_none hent r hnone)
  · rw [learn_ne G r hus hst] at hclose
    exact .inr hclose

namespace Family

section

variable (h : Family S G) (ha : Answered S S' G c s ch e k r) (he : e.threaded = false)
include h ha he

theorem solo_of_done (hu : (S'.thread u).state.live = true) : u.2 = 0 := by
  have hperf := ha.perf
  cases hready : (S.proc u.1).isReady with
  | true =>
    refine h.solo ?_
    cases ha.turn hready with
    | same hsame => rwa [hsame] at hu
    | woken hold => simp [hold]
    | started hst | taken hst =>
      rw [hst] at he
      cases he
  | false =>
    -- only `fork` brings life into a process that is not ready
    have hready' := ha.keeps.ready (s := u) hu
    cases ha.fate u.1 with
    | same hs =>
      rw [Entry.isReady_congr (e := S.proc u.1) hs, hready] at hready'
      cases hready'
    | taken _ _ hs' | adopted _ _ _ hs' | freed _ _ hs' => simp [Entry.isReady, hs'] at hready'
    | launched hfork =>
      subst hfork
      cases hperf
      by_contra hu2
      have hne : u ≠ (u.1, 0) := fun heq => hu2 (congrArg Prod.snd heq)
      rw [setThread_ne _ hne] at hu
      rw [ha.inv.ready hu] at hready
      cases hready

theorem of_done : Family { S' with code := update S'.code s (k r) } (learn G s e r) := by
  have hperf := ha.perf
  have hmarks := marks_of_done hperf
  have hinit := hmarks.initproc
  have hfate := ha.fate
  -- `init` is not being set up, nor reaped
  have hroot : (S'.proc S.initproc).state = (S.proc S.initproc).state ∧
      (S'.proc S.initproc).parent = (S.proc S.initproc).parent := by
    have hready := h.ready
    cases hfate S.initproc with
    | same hs hp => exact ⟨hs, hp⟩
    | taken hs | adopted _ hs | launched _ hs => simp [Entry.isReady, hs] at hready
    | freed hs => obtain hs | hs := hs <;> simp [Entry.isReady, hs] at hready
  refine ⟨fun {u} hu => h.solo_of_done ha he hu, ?_, ?_, fun z hz => ?_,
    fun {u} hu hclose => ?_, fun {u} hu => ?_⟩
  · dsimp only
    rw [hinit, Entry.isReady_congr hroot.1]
    exact h.ready
  · dsimp only
    rw [hinit, hroot.2]
    exact h.root
  · dsimp only at hz
    cases hfate z with
    | same _ hp | launched _ _ hp => exact h.self z (hp.symm.trans hz)
    | taken _ hp | freed _ hp => cases hp.symm.trans hz
    | adopted _ hs hp =>
      -- the new parent is running, the child is not
      obtain rfl : s.1 = z := Option.some.inj (hp.symm.trans hz)
      have := ha.inv.ready (ha.inv.running_live ha.cpu)
      simp [Entry.isReady, hs] at this
  · dsimp only
    rw [hinit]
    obtain ⟨hau, ⟨rfl, rfl⟩ | hclose⟩ := ha.closing hu hclose
    · simp only [perform] at hperf
      split at hperf
      · cases hperf
      · assumption
    · exact h.exits hau hclose
  · exact (hmarks.chan u).trans (h.chan (ha.inWait hu))

end

end Family

end Answered

/-! ## The other steps -/

theorem Family.same (h : Family S G) (hp : S'.proc = S.proc) (hinit : S'.initproc = S.initproc)
    (hlive : ∀ u, (S'.thread u).state.live = true → (S.thread u).state.live = true)
    (hact : ∀ u, (S'.thread u).state.active = true ↔ (S.thread u).state.active = true)
    (hchan : ∀ u, S'.inWait u = true → (S'.thread u).chan = .proc u.1) : Family S' G where
  solo hu := h.solo (hlive _ hu)
  ready := by
    rw [hp, hinit]
    exact h.ready
  root := by
    rw [hp, hinit]
    exact h.root
  self z := by
    rw [hp]
    exact h.self z
  exits hu := by
    rw [hinit]
    exact h.exits ((hact _).mp hu)
  chan := hchan _

theorem NoLostExit.same (h : NoLostExit S) (hp : S'.proc = S.proc)
    (hwait : ∀ u, S'.inWait u = true → S.inWait u = true) : NoLostExit S' := by
  intro u z hu
  rw [hp]
  exact h u z (hwait u hu)

theorem inWait_dispatch (h : (S.dispatch c s).inWait u = true) : u ≠ s ∧ S.inWait u = true := by
  obtain ⟨hsleep, k, hk⟩ := inWait_iff.mp h
  have hus : u ≠ s := by
    rintro rfl
    simp [dispatch] at hsleep
  exact ⟨hus, inWait_iff.mpr ⟨by simpa [dispatch, hus] using hsleep, k, hk⟩⟩

theorem inWait_yield {depth : ℕ} (h : (S.yield c s depth).inWait u = true) :
    u ≠ s ∧ S.inWait u = true := by
  obtain ⟨hsleep, k, hk⟩ := inWait_iff.mp h
  have hus : u ≠ s := by
    rintro rfl
    simp [yield, Kernel.leave] at hsleep
  exact ⟨hus, inWait_iff.mpr ⟨by simpa [yield, Kernel.leave, hus] using hsleep, k, hk⟩⟩

theorem inWait_wakeup1 {chan : Chan} (h : (S.wakeup1 chan).inWait u = true) :
    S.inWait u = true := by
  obtain ⟨hsleep, k, hk⟩ := inWait_iff.mp h
  refine inWait_iff.mpr ⟨?_, k, hk⟩
  obtain hsame | ⟨hold, -⟩ := (quiet_wakeup1 S chan).thread u
  · exact hsame.symm.trans hsleep
  · exact hold

theorem perform_wait_sleep {ch : Choice} {chan : Chan}
    (h : S.perform c s ch .wait = some (.sleep chan)) :
    chan = .proc s.1 ∧ ∀ z, (S.proc z).parent = some s.1 → (S.proc z).state ≠ .zombie := by
  simp only [perform] at h
  split at h
  · split at h <;> cases h
  · rename_i hnone
    split at h
    · cases h
    · cases h
      refine ⟨rfl, fun z hz hzombie => ?_⟩
      have := List.find?_eq_none.mp hnone z (List.mem_finRange z)
      simp [hz, hzombie] at this

section Sleep

variable {e : KOp} {k : e.Ans → KProg Unit} {ch : Choice} {chan : Chan}

theorem inWait_sleepOn (hcode : S.code s = .vis e k)
    (hperf : S.perform c s ch e = some (.sleep chan))
    (h : (S.sleepOn c s chan ch.depth).inWait u = true) :
    u ≠ s ∧ S.inWait u = true ∨ u = s ∧ chan = .proc s.1 ∧
      ∀ z, (S.proc z).parent = some s.1 → (S.proc z).state ≠ .zombie := by
  obtain ⟨hsleep, k', hk⟩ := inWait_iff.mp h
  by_cases hus : u = s
  · subst hus
    have hk' : S.code u = .vis .wait k' := hk
    rw [hcode] at hk'
    obtain ⟨rfl, -⟩ := Prog.vis.inj hk'
    exact .inr ⟨rfl, perform_wait_sleep hperf⟩
  · exact .inl ⟨hus, inWait_iff.mpr ⟨by simpa [sleepOn, Kernel.leave, hus] using hsleep, k', hk⟩⟩

theorem NoLostExit.of_sleep (h : NoLostExit S) (hcode : S.code s = .vis e k)
    (hperf : S.perform c s ch e = some (.sleep chan)) :
    NoLostExit (S.sleepOn c s chan ch.depth) := by
  intro u z hu hpar
  obtain ⟨-, hu⟩ | ⟨rfl, -, hnone⟩ := inWait_sleepOn hcode hperf hu
  · exact h u z hu hpar
  · exact hnone z hpar

theorem Family.of_sleep (h : Family S G) (hi : Inv S G) (hc : (S.cpu c).thread = some s)
    (hcode : S.code s = .vis e k) (hperf : S.perform c s ch e = some (.sleep chan)) :
    Family (S.sleepOn c s chan ch.depth) G := by
  have hstate : ∀ u, u ≠ s →
      (S.sleepOn c s chan ch.depth).thread u = S.thread u := by
    intro u hus
    simp [sleepOn, Kernel.leave, hus]
  have hrun := hi.running hc
  refine h.same rfl rfl (fun u hu => ?_) (fun u => ?_) fun u hu => ?_
  · by_cases hus : u = s
    · simp [hus, hrun]
    · rwa [hstate u hus] at hu
  · by_cases hus : u = s
    · simp [hus, hrun, sleepOn, Kernel.leave]
    · rw [hstate u hus]
  · obtain ⟨hus, hu⟩ | ⟨rfl, rfl, -⟩ := inWait_sleepOn hcode hperf hu
    · rw [hstate u hus]
      exact h.chan hu
    · simp [sleepOn, Kernel.leave]

end Sleep

/-! ## The end of `exit` -/

section Exit

variable {k : Empty → KProg Unit} {ch : Choice}

/-- The channel that `exit` in process `p` wakes up. -/
def Kernel.parentChan (S : Kernel ncpu) (p : PId) : Chan := (S.proc p).parent.elim .null .proc

theorem exitDone_thread (hperf : S.perform c s ch .exitDone = some (.gone S')) (hu : u.1 ≠ s.1) :
    S'.thread u = (S.wakeup1 (S.parentChan s.1)).thread u := by
  cases (withRow_gone hperf).2
  have hus : u ≠ s := fun he => hu (by rw [he])
  simp [Kernel.leave, exitTables, reparent, parentChan, hu, hus]

theorem exitDone_parent (hperf : S.perform c s ch .exitDone = some (.gone S'))
    (hself : (S.proc s.1).parent ≠ some s.1) :
    S'.initproc = S.initproc ∧ (S'.proc s.1).parent = (S.proc s.1).parent := by
  cases (withRow_gone hperf).2
  refine ⟨rfl, ?_⟩
  simp [Kernel.leave, exitTables, reparent, wakeup1, hself]

namespace Family

section

variable (h : Family S G) (hi : Inv S G)
include h hi

theorem inWait_of_exit (hperf : S.perform c s ch .exitDone = some (.gone S'))
    (hu : S'.inWait u = true) :
    u.1 ≠ s.1 ∧ S.inWait u = true ∧ S'.thread u = S.thread u ∧
      (S.proc s.1).parent ≠ some u.1 := by
  obtain ⟨hex, -, -, hcode'⟩ := exitDone_gone hperf
  obtain ⟨hsleep, k', hk⟩ := inWait_iff.mp hu
  have hne : u.1 ≠ s.1 := by
    intro he
    cases (hex.thread he).symm.trans hsleep
  have hthread := exitDone_thread hperf hne
  have hnot : S.sleepsOn (S.parentChan s.1) u = false := by
    refine Bool.eq_false_iff.mpr fun hon => ?_
    rw [hthread, hi.wakeup1_sleepsOn hon] at hsleep
    cases hsleep
  rw [wakeup1_thread_of_not_sleepsOn hnot] at hthread
  rw [hcode'] at hk
  have hwait : S.inWait u = true := inWait_iff.mpr ⟨hthread ▸ hsleep, k', hk⟩
  refine ⟨hne, hwait, hthread, fun hpar => ?_⟩
  have hon : S.sleepsOn (S.parentChan s.1) u = true := by
    refine sleepsOn_iff.mpr ⟨hthread ▸ hsleep, ?_⟩
    rw [h.chan hwait, parentChan, hpar]
    rfl
  rw [hnot] at hon
  cases hon

theorem no_embryo (ha : Adopted S G) (hc : (S.cpu c).thread = some s)
    (hcode : S.code s = .vis .exitDone k) {z : PId} (hpar : (S.proc z).parent = some s.1) :
    (S.proc z).state ≠ .embryo := by
  intro hz
  obtain ⟨u, hus, hu, st, hst⟩ := ha z s.1 hz hpar
  obtain rfl : u = s := Prod.ext hus
    ((h.solo (RunState.live_of_active hu)).trans (h.solo (hi.running_live hc)).symm)
  rw [(hi.pre_of_code hc hcode).1.np] at hst
  cases hst

theorem child_of_exit (ha : Adopted S G) (hc : (S.cpu c).thread = some s)
    (hcode : S.code s = .vis .exitDone k) (hperf : S.perform c s ch .exitDone = some (.gone S'))
    {z : PId} (hpar : (S.proc z).parent = some s.1) :
    S'.proc z = { S.proc z with parent := some S.initproc } := by
  have hzs : z ≠ s.1 := by
    rintro rfl
    exact h.self _ hpar
  obtain ⟨st, he, rfl | ⟨rfl, hidle⟩⟩ := (exitDone_gone hperf).1.child hzs hpar
  · exact he
  suffices hz : (S.proc z).state = .zombie by rw [he, ← hz]
  cases hst : (S.proc z).state with
  | zombie => rfl
  | unused => cases (hi.orphan hst).symm.trans hpar
  | embryo => exact absurd hst (h.no_embryo hi ha hc hcode hpar)
  | sleeping | runnable | running =>
    -- a process that has been set up has a thread
    have hact : (S.proc z).state.active = true := by simp [hst]
    obtain ⟨t, ht⟩ := hi.peopled hact
    have := rowIdle_iff.mp (hidle (hi.row (RunState.live_of_active hact))) t
    rw [ht] at this
    cases this

theorem not_init (hc : (S.cpu c).thread = some s) (hcode : S.code s = .vis .exitDone k) :
    s.1 ≠ S.initproc := by
  obtain ⟨fds, hclosing, -⟩ := (hi.pre_of_code hc hcode).2
  exact h.exits (hi.running_active hc) (by simp [hclosing])

theorem of_exit (ha : Adopted S G) (hc : (S.cpu c).thread = some s)
    (hcode : S.code s = .vis .exitDone k) (hperf : S.perform c s ch .exitDone = some (.gone S')) :
    Family S' G := by
  have hex := (exitDone_gone hperf).1
  have hne := h.not_init hi hc hcode
  obtain ⟨hinit, hparent⟩ := exitDone_parent hperf (h.self s.1)
  have hroot : S'.proc S.initproc = S.proc S.initproc :=
    hex.other hne.symm (by rw [h.root]; simp)
  have hact : ∀ {u}, (S'.thread u).state.active = true → (S.thread u).state.active = true :=
    fun hu => active_of_gone hperf hu
  refine ⟨fun {u} hu => ?_, by rw [hinit, hroot]; exact h.ready, by rw [hinit, hroot]; exact h.root,
    fun z hz => ?_, fun {u} hu => by rw [hinit]; exact h.exits (hact hu), fun {u} hu => ?_⟩
  · have hus : u.1 ≠ s.1 := by
      intro he
      simp [hex.thread he] at hu
    refine h.solo ?_
    obtain hsame | ⟨hsleep, -⟩ := hex.wake hus
    · rwa [hsame] at hu
    · simp [hsleep]
  · by_cases hzs : z = s.1
    · subst hzs
      exact h.self _ (hparent.symm.trans hz)
    by_cases hpar : (S.proc z).parent = some s.1
    · rw [h.child_of_exit hi ha hc hcode hperf hpar] at hz
      obtain rfl : S.initproc = z := Option.some.inj hz
      cases h.root.symm.trans hpar
    · rw [hex.other hzs hpar] at hz
      exact h.self z hz
  · obtain ⟨-, hwait, hthread, -⟩ := h.inWait_of_exit hi hperf hu
    rw [hthread]
    exact h.chan hwait

/-- **What `exit` tells whom.**  After the end of an `exit` a thread sleeps over a zombie if
and only if the process was not a child of `init`, had a zombie to hand over, and `init` is
asleep. -/
theorem noLostExit_of_exit (ha : Adopted S G) (hl : NoLostExit S) (hc : (S.cpu c).thread = some s)
    (hcode : S.code s = .vis .exitDone k) (hperf : S.perform c s ch .exitDone = some (.gone S')) :
    NoLostExit S' ↔ (S.proc s.1).parent = some S.initproc ∨ S.initWaits = false ∨
      S.hasZombie s.1 = false := by
  have hex := (exitDone_gone hperf).1
  obtain ⟨hinit, hparent⟩ := exitDone_parent hperf (h.self s.1)
  constructor
  · intro hl'
    by_contra hnot
    simp only [not_or, Bool.not_eq_false] at hnot
    obtain ⟨hpar, hwaits, hzombie⟩ := hnot
    obtain ⟨t, ht⟩ := initWaits_iff.mp hwaits
    obtain ⟨z, hzpar, hz⟩ := hasZombie_iff.mp hzombie
    -- the thread of `init` is not woken up
    have hne : S.initproc ≠ s.1 := (h.not_init hi hc hcode).symm
    have hnoton : S.sleepsOn (S.parentChan s.1) (S.initproc, t) = false := by
      refine Bool.eq_false_iff.mpr fun hon => hpar ?_
      have hchan := (sleepsOn_iff.mp hon).2
      rw [h.chan ht, parentChan] at hchan
      cases hp : (S.proc s.1).parent with
      | none => simp [hp] at hchan
      | some q =>
        simp only [hp, Option.elim_some, Chan.proc.injEq] at hchan
        rw [hchan]
    have hthread := exitDone_thread hperf (u := (S.initproc, t)) hne
    rw [wakeup1_thread_of_not_sleepsOn hnoton] at hthread
    obtain ⟨hsleep, k', hk⟩ := inWait_iff.mp ht
    have hwait : S'.inWait (S.initproc, t) = true :=
      inWait_iff.mpr ⟨by rw [hthread]; exact hsleep, k', by rw [(exitDone_gone hperf).2.2.2]; exact hk⟩
    refine hl' _ z hwait ?_ ?_
    · rw [h.child_of_exit hi ha hc hcode hperf hzpar]
    · rw [h.child_of_exit hi ha hc hcode hperf hzpar]
      exact hz
  · intro hnotify u z hu hpar hz
    obtain ⟨hus, hwait, -, hnotpar⟩ := h.inWait_of_exit hi hperf hu
    by_cases hzs : z = s.1
    · subst hzs
      exact hnotpar (hparent.symm.trans hpar)
    by_cases hzpar : (S.proc z).parent = some s.1
    · rw [h.child_of_exit hi ha hc hcode hperf hzpar] at hpar hz
      obtain hroot : S.initproc = u.1 := Option.some.inj hpar
      obtain hn | hn | hn := hnotify
      · exact hnotpar (hn.trans hpar)
      · have : S.initWaits = true := initWaits_iff.mpr ⟨u.2, by rw [hroot]; exact hwait⟩
        rw [hn] at this
        cases this
      · have : S.hasZombie s.1 = true := hasZombie_iff.mpr ⟨z, hzpar, hz⟩
        rw [hn] at this
        cases this
    · rw [hex.other hzs hzpar] at hpar hz
      exact hl u z hwait hpar hz

end

end Family

end Exit

/-! ## Runs -/

theorem Family.orderly (h : Family S G) (hi : Inv S G) {a : Act ncpu} (hok : SingleThreaded S a) :
    Orderly S a := by
  cases a with
  | run c ch =>
    simp only [Orderly, Kernel.orderly]
    split
    · rename_i s hnext
      simp [SingleThreaded, singleThreaded, hnext, KOp.threaded] at hok
    · rename_i s hnext
      have hc := (nextOp_iff.mp hnext).1
      rw [Bool.not_eq_true']
      refine siblingRuns_eq_false.mpr fun d u hd hus => ?_
      exact Prod.ext hus ((h.solo (hi.running_live hd)).trans (h.solo (hi.running_live hc)).symm)
    · rfl
  | schedule | enter | tick | intr => rfl

theorem notifying_run {ch : Choice} {e : KOp} {k : e.Ans → KProg Unit}
    (hc : (S.cpu c).thread = some s) (hcode : S.code s = .vis e k) (he : e ≠ .exitDone) :
    Notifying S (.run c ch) := by
  simp only [Notifying, notifying, nextOp_eq hc hcode]
  cases e with
  | exitDone => exact absurd rfl he
  | _ => rfl

theorem notifying_exit {ch : Choice} {k : Empty → KProg Unit} (hc : (S.cpu c).thread = some s)
    (hcode : S.code s = .vis .exitDone k) :
    Notifying S (.run c ch) ↔ (S.proc s.1).parent = some S.initproc ∨ S.initWaits = false ∨
      S.hasZombie s.1 = false := by
  simp [Notifying, notifying, nextOp_eq hc hcode, or_assoc]

theorem Family.step {G' : Slot → Ctx} {a : Act ncpu} (h : Family S G) (hi : Inv S G)
    (ha : Adopted S G) (hok : SingleThreaded S a) (hm : Moves S G a S' G') : Family S' G' := by
  cases hm with
  | schedule hc hrun =>
    rename_i c s
    have hs := runnable_of_canRun hrun
    refine h.same rfl rfl (fun u hu => ?_) (fun u => ?_) fun u hu => ?_
    · by_cases hus : u = s
      · simp [hus, hs]
      · simpa [dispatch, hus] using hu
    · by_cases hus : u = s
      · simp [dispatch, hus, hs]
      · simp [dispatch, hus]
    · obtain ⟨hus, hu⟩ := inWait_dispatch hu
      simpa [dispatch, hus] using h.chan hu
  | done hc hcode hperf =>
    have he := hok.not_threaded hc hcode
    exact h.of_done ⟨hi, hc, hcode, hperf, not_threadExit he S _⟩ he
  | sleep hc hcode hperf => exact h.of_sleep hi hc hcode hperf
  | gone hc hcode hperf =>
    obtain rfl | rfl := gone_cases hperf
    · cases hok.not_threaded hc hcode
    · exact h.of_exit hi ha hc hcode hperf
  | enter hc hcode =>
    rename_i c s t
    -- a thread in user space knows nothing
    have hstart := hi.start_of_code hc hcode
    rw [← hstart, update_eq_self]
    refine h.same rfl rfl (fun u hu => hu) (fun u => .rfl) fun u hu => ?_
    obtain ⟨hsleep, k, hk⟩ := inWait_iff.mp hu
    have hus : u ≠ s := by
      rintro rfl
      cases (hi.running hc).symm.trans hsleep
    exact h.chan (inWait_iff.mpr ⟨hsleep, k, by simpa [hus] using hk⟩)
  | tick hc hcode hs =>
    rename_i c s depth e k
    refine h.same rfl rfl (fun u hu => ?_) (fun u => ?_) fun u hu => ?_
    · by_cases hus : u = s
      · simp [hus, hs]
      · simpa [yield, Kernel.leave, hus] using hu
    · by_cases hus : u = s
      · simp [yield, Kernel.leave, hus, hs]
      · simp [yield, Kernel.leave, hus]
    · obtain ⟨hus, hu⟩ := inWait_yield hu
      simpa [yield, Kernel.leave, hus] using h.chan hu
  | intr =>
    rename_i chan
    have hq := quiet_wakeup1 S chan
    refine h.same rfl rfl (fun u hu => hq.live_eq u ▸ hu) (fun u => by rw [hq.active_eq]) fun u hu => ?_
    rw [wakeup1_chan]
    exact h.chan (inWait_wakeup1 hu)

/-- **A single-threaded step loses an exit if and only if it does not notify.** -/
theorem Family.noLostExit_iff {G' : Slot → Ctx} {a : Act ncpu} (h : Family S G) (hi : Inv S G)
    (ha : Adopted S G) (hl : NoLostExit S) (hok : SingleThreaded S a) (hm : Moves S G a S' G') :
    NoLostExit S' ↔ Notifying S a := by
  cases hm with
  | schedule hc hrun =>
    exact iff_of_true (hl.same rfl fun u hu => (inWait_dispatch hu).2) rfl
  | done hc hcode hperf =>
    refine iff_of_true (hl.of_done (G := G) ⟨hi, hc, hcode, hperf, not_threadExit (hok.not_threaded hc hcode) S _⟩)
      (notifying_run hc hcode ?_)
    rintro rfl
    exact Empty.elim ‹_›
  | sleep hc hcode hperf =>
    refine iff_of_true (hl.of_sleep hcode hperf) (notifying_run hc hcode ?_)
    rintro rfl
    simp only [perform, withRow] at hperf
    split at hperf <;> cases hperf
  | gone hc hcode hperf =>
    obtain rfl | rfl := gone_cases hperf
    · cases hok.not_threaded hc hcode
    · exact (h.noLostExit_of_exit hi ha hl hc hcode hperf).trans (notifying_exit hc hcode).symm
  | enter hc hcode =>
    refine iff_of_true (hl.same rfl fun u hu => ?_) rfl
    rename_i c s t
    obtain ⟨hsleep, k, hk⟩ := inWait_iff.mp hu
    have hus : u ≠ s := by
      rintro rfl
      cases (hi.running hc).symm.trans hsleep
    exact inWait_iff.mpr ⟨hsleep, k, by simpa [hus] using hk⟩
  | tick hc hcode hs => exact iff_of_true (hl.same rfl fun u hu => (inWait_yield hu).2) rfl
  | intr => exact iff_of_true (hl.same rfl fun u hu => inWait_wakeup1 hu) rfl

theorem Family.of_booted (h : Booted S) : Family S fun _ => .start := by
  obtain ⟨k, d, avail, -, -, -, rfl⟩ := h
  have hproc : ∀ p, ((boot ncpu k d avail).proc p).parent = none := by
    intro p
    by_cases hp : p = 0 <;> simp [boot, hp, Entry.empty]
  have hsleep : ∀ u, ((boot ncpu k d avail).thread u).state ≠ .sleeping := by
    intro u
    by_cases hu : u = (0, 0) <;> simp [boot, hu, KThread.empty]
  refine ⟨fun {u} hu => ?_, rfl, hproc 0, fun z => by simp [hproc], fun _ hclose => absurd rfl hclose,
    fun {u} hu => absurd (inWait_iff.mp hu).1 (hsleep u)⟩
  by_cases hu0 : u = (0, 0)
  · rw [hu0]
  · simp [boot, hu0, KThread.empty] at hu

theorem NoLostExit.of_booted (h : Booted S) : NoLostExit S := by
  obtain ⟨k, d, avail, -, -, -, rfl⟩ := h
  intro u z _ hpar
  by_cases hz : z = 0 <;> simp [boot, hz, Entry.empty] at hpar

theorem family_of_reach (h : Reach step SoloNotifying Booted S) :
    ∃ G, Inv S G ∧ Adopted S G ∧ Family S G ∧ NoLostExit S := by
  refine Reach.invariant (I := fun S => ∃ G, Inv S G ∧ Adopted S G ∧ Family S G ∧ NoLostExit S)
    (fun S hS => ⟨_, .of_booted hS, .of_booted hS _, .of_booted hS, .of_booted hS⟩) ?_ h
  rintro S a S' ⟨G, hi, ha, hf, hl⟩ ⟨hsolo, hnotify⟩ hs
  obtain ⟨G', hm⟩ := Moves.of_step G hs
  have hok := hf.orderly hi hsolo
  exact ⟨G', hi.step hok hm, ha.step hi hok hm, hf.step hi ha hsolo hm,
    (hf.noLostExit_iff hi ha hl hsolo hm).mpr hnotify⟩

/-- **Nobody waits for a zombie.**  In every state that notifying steps of single-threaded
processes reach, a thread that sleeps in `wait` sleeps on its process, none of whose children
is a zombie; and the next step of single-threaded processes keeps it so if and only if it
notifies. -/
theorem no_lost_exit (h : Reach step SoloNotifying Booted S) :
    (∀ u, S.inWait u = true → (S.thread u).chan = .proc u.1) ∧ NoLostExit S ∧
    ∀ a S', SingleThreaded S a → step S a = some (.ok S') → (NoLostExit S' ↔ Notifying S a) := by
  obtain ⟨G, hi, ha, hf, hl⟩ := family_of_reach h
  refine ⟨fun u hu => hf.chan hu, hl, fun a S' hsolo hs => ?_⟩
  obtain ⟨G', hm⟩ := Moves.of_step G hs
  exact hf.noLostExit_iff hi ha hl hsolo hm

/-- The first process waits for its child, which runs on the second processor. -/
def initWaiting : List (Act 2) := childRuns ++ calls cpu0 .wait 3

set_option maxRecDepth 10000 in
/-- The child exits while its parent is asleep in `wait`: the parent is woken up. -/
theorem no_lost_exit_childExits :
    ∃ S : Kernel 2, Reach step SoloNotifying Booted S ∧ (S.proc 1).state = .zombie ∧
      (S.thread (0, 0)).state = .runnable ∧ NoLostExit S := by
  have hm : Meets step SoloNotifying booted (initWaiting ++ calls cpu1 .exit 28) := by
    decide +kernel
  have he : endsIn step booted (initWaiting ++ calls cpu1 .exit 28)
      (fun S => (S.proc 1).state == .zombie && (S.thread (0, 0)).state == .runnable) = true := by
    decide +kernel
  obtain ⟨S, hS, hz⟩ := Reach.of_endsIn booted_booted he hm
  rw [Bool.and_eq_true, beq_iff_eq, beq_iff_eq] at hz
  exact ⟨S, hS, hz.1, hz.2, (no_lost_exit hS).2.1⟩

/-- The process on `c` calls `fork`; the child has pages `p` and `q`. -/
def forks (c : Fin 2) (p q : ℕ) : List (Act 2) :=
  [.enter c (.syscall .fork), go c, go c, go c, goPage c p, go c, goPage c q] ++
    List.replicate 20 (go c)

/-- `init` waits; its child forks a child of its own, which forks another; that one exits, and
then its parent does. -/
def threeGenerations : List (Act 2) :=
  initWaiting ++ forks cpu1 30 31 ++ [.schedule cpu0 (2, 0), go cpu0] ++ calls cpu1 .wait 3 ++
    forks cpu0 40 41 ++ [.schedule cpu1 (3, 0), go cpu1] ++ calls cpu1 .exit 28 ++
    calls cpu0 .exit 28

set_option maxRecDepth 20000 in
/-- **`init` sleeps on beside a zombie that it has been handed.** -/
theorem zombie_handed_to_sleeper :
    ∃ S : Kernel 2, Reach step SingleThreaded Booted S ∧ S.inWait (0, 0) = true ∧
      (S.thread (0, 0)).chan = .proc 0 ∧ (S.proc 3).parent = some 0 ∧
      (S.proc 3).state = .zombie := by
  have hm : Meets step SingleThreaded booted threeGenerations := by decide +kernel
  have he : endsIn step booted threeGenerations (fun S => S.inWait (0, 0) &&
      (S.thread (0, 0)).chan == .proc 0 && (S.proc 3).parent == some 0 &&
      (S.proc 3).state == .zombie) = true := by decide +kernel
  obtain ⟨S, hS, hz⟩ := Reach.of_endsIn booted_booted he hm
  simp only [Bool.and_eq_true, beq_iff_eq] at hz
  exact ⟨S, hS, hz.1.1.1, hz.1.1.2, hz.1.2, hz.2⟩

end Xv6.Proc
