import Xv6.Proc.Marks

/-!
# A zombie is dead

`wait` gives back the kernel stack and the address space of a zombie, so a zombie must
have no thread that can still run, and nothing open.  The state `ZOMBIE` is written in
three places --- by `exit` for its own process, by `exit` for children that look idle, and
by `kthread_exit` for the last thread, before `exit` --- and while a thread is in `exit`,
closing one descriptor after the other, its siblings go on.  So besides being `Orderly`
the steps must be `Tidy`: at the end of `exit` no child of the process is still being set
up, and nobody puts a descriptor or a current directory into a process that has a thread
in `exit`.
-/

namespace Xv6.Proc

open Function Transition Kernel

variable {ncpu : ℕ} {S S' : Kernel ncpu} {G : Slot → Ctx} {c : Fin ncpu} {s : Slot}

namespace Kernel

/-- A child of the process is being set up. -/
def hasEmbryo (S : Kernel ncpu) (p : PId) : Bool :=
  (List.finRange nproc).any fun q => (S.proc q).parent == some p && (S.proc q).state == .embryo

/-- Test for the second half of `Tidy`. -/
def tidy (S : Kernel ncpu) : Act ncpu → Bool
  | .run c _ =>
    match S.nextOp c with
    | some (s, .exitDone) => !S.hasEmbryo s.1
    | some (s, .setOfile _ (some _)) => !S.exiting s.1
    | some (s, .setCwd (some _)) => !S.exiting s.1
    | _ => true
  | _ => true

/-- The process-table entry that a step takes for a new process. -/
def reallocated (S : Kernel ncpu) : Act ncpu → Option PId
  | .run c _ =>
    match S.nextOp c with
    | some (_, .procAlloc) => S.procAlloc.1
    | _ => none
  | _ => none

end Kernel

/-- The orderly steps in which `exit` leaves nothing behind: at its end no child of the
process is being set up, and no descriptor or current directory is stored in a process
that has a thread in `exit`. -/
def Tidy (S : Kernel ncpu) (a : Act ncpu) : Prop := Orderly S a ∧ S.tidy a = true

instance (S : Kernel ncpu) (a : Act ncpu) : Decidable (Tidy S a) :=
  inferInstanceAs (Decidable (_ ∧ _))

/-- Nothing is open in the process, no processor runs a thread of it, and no thread of it
is `RUNNABLE`, `RUNNING` or `SLEEPING`. -/
structure Dead (S : Kernel ncpu) (p : PId) : Prop where
  ofile : ∀ fd, (S.proc p).ofile fd = none
  cwd : (S.proc p).cwd = none
  off : ∀ c s, (S.cpu c).thread = some s → s.1 ≠ p
  still : ∀ t, (S.thread (p, t)).state.active = false

/-- What has been seen closed in process `p` is closed. -/
def Seen (S : Kernel ncpu) (p : PId) (x : Option (List (Fin nofile) × Bool)) : Prop :=
  ∀ fds b, x = some (fds, b) →
    S.exiting p = true ∧ (∀ fd ∈ fds, (S.proc p).ofile fd = none) ∧
      (b = true → (S.proc p).cwd = none)

/-- What threads in `exit` have seen closed is closed, and so is everything in a zombie. -/
structure Closed (S : Kernel ncpu) (G : Slot → Ctx) : Prop where
  seen : ∀ {s}, (S.thread s).state.active = true → Seen S s.1 (G s).closing
  zombie : ∀ {p}, (S.proc p).state = .zombie →
    (∀ fd, (S.proc p).ofile fd = none) ∧ (S.proc p).cwd = none

namespace Tidy

variable {ch : Choice}

section

variable (h : Tidy S (.run c ch)) (hc : (S.cpu c).thread = some s)
include h hc

theorem noEmbryo {k : Empty → KProg Unit} (hcode : S.code s = .vis .exitDone k) {q : PId}
    (hq : (S.proc q).parent = some s.1) : (S.proc q).state ≠ .embryo := by
  have := h.2
  simp only [tidy, nextOp_eq hc hcode, hasEmbryo, Bool.not_eq_true', List.any_eq_false,
    List.mem_finRange, true_implies, Bool.and_eq_true, beq_iff_eq, not_and] at this
  exact this q hq

theorem notExiting_ofile {fd : Fin nofile} {f : Fs.FileId} {k : Unit → KProg Unit}
    (hcode : S.code s = .vis (.setOfile fd (some f)) k) : S.exiting s.1 = false := by
  have := h.2
  simpa only [tidy, nextOp_eq hc hcode, Bool.not_eq_true'] using this

theorem notExiting_cwd {ip : Fs.Inum} {k : Unit → KProg Unit}
    (hcode : S.code s = .vis (.setCwd (some ip)) k) : S.exiting s.1 = false := by
  have := h.2
  simpa only [tidy, nextOp_eq hc hcode, Bool.not_eq_true'] using this

end

end Tidy

/-! ## Descriptors -/

namespace Seen

variable {q : PId} {x : Option (List (Fin nofile) × Bool)}

theorem none (S : Kernel ncpu) (q : PId) : Seen S q none := fun _ _ h => by cases h

theorem of_same (h : Seen S q x) (ho : (S'.proc q).ofile = (S.proc q).ofile)
    (hd : (S'.proc q).cwd = (S.proc q).cwd) (he : S'.exiting q = S.exiting q) : Seen S' q x := by
  intro fds b hx
  rw [ho, hd, he]
  exact h fds b hx

theorem sameFiles (h : Seen S q x) (hf : SameFiles S S') : Seen S' q x :=
  h.of_same (hf.ofile q) (hf.cwd q) (by rw [hf.exiting])

theorem eq_none (h : Seen S q x) (hq : S.exiting q = false) : x = Option.none := by
  cases x with
  | none => rfl
  | some x => exact absurd ((h x.1 x.2 rfl).1.symm.trans hq) (by simp)

theorem fd {g : Ctx} (h : Seen S q g.closing) {fd : Fin nofile}
    (hfd : (S.proc q).ofile fd = Option.none) : Seen S q (g.seeFd fd).closing := by
  intro fds b hx
  simp only [Ctx.seeFd, Option.map_eq_some_iff, Prod.mk.injEq] at hx
  obtain ⟨⟨fds', b'⟩, hg, rfl, rfl⟩ := hx
  obtain ⟨he, ho, hd⟩ := h fds' b' hg
  refine ⟨he, fun fd' hfd' => ?_, hd⟩
  obtain rfl | hfd' := List.mem_cons.mp hfd'
  · exact hfd
  · exact ho fd' hfd'

theorem dir {g : Ctx} (h : Seen S q g.closing) (hd : (S.proc q).cwd = Option.none) :
    Seen S q g.seeCwd.closing := by
  intro fds b hx
  simp only [Ctx.seeCwd, Option.map_eq_some_iff, Prod.mk.injEq] at hx
  obtain ⟨⟨fds', b'⟩, hg, rfl, rfl⟩ := hx
  obtain ⟨he, ho, _⟩ := h fds' b' hg
  exact ⟨he, ho, fun _ => hd⟩

end Seen

theorem next_closing {e : KOp} (he : e.keepsFiles = true) (hl : ∀ fd, e ≠ .ofile fd) (r : e.Ans)
    (g : Ctx) : (e.next r g).closing = g.closing := by
  cases e with
  | ofile fd => exact absurd rfl (hl fd)
  | iputTest ip => cases r <;> rfl
  | iputEnd ip freed => cases freed <;> rfl
  | _ => first | rfl | cases he

namespace Closed

variable {e : KOp} {k : e.Ans → KProg Unit} {ch : Choice} {r : e.Ans}

section

variable (h : Closed S G)
include h

theorem answered (ha : Answered S S' G c s ch e k r)
    (hother : ∀ u, u ≠ s → (S.thread u).state.active = true → Seen S' u.1 (G u).closing)
    (hself : Seen S' s.1 (e.next r (G s)).closing) (hz : ∀ q, (S.proc q).state = .zombie →
      (S'.proc q).ofile = (S.proc q).ofile ∧ (S'.proc q).cwd = (S.proc q).cwd) :
    Closed { S' with code := update S'.code s (k r) } (learn G s e r) := by
  refine ⟨fun {u} hu => ?_, fun {q} hq => ?_⟩
  · by_cases hst : e.starts s = some u
    · rw [learn_starts G r hst]
      exact .none _ _
    · have hau := (ha.thread hst).active_iff.mp hu
      by_cases hus : u = s
      · subst hus
        rw [learn_self G r hst]
        exact hself
      · rw [learn_ne G r hus hst]
        exact hother u hus hau
  · have hq' : (S.proc q).state = .zombie := by
      obtain hsame | ⟨-, hne⟩ | ⟨hold, -⟩ | ⟨-, -, -, hemb⟩ :=
        ha.entry q
      · exact hsame.symm.trans hq
      · exact absurd hq hne
      · exact hold
      · exact absurd (hemb.symm.trans hq) (by simp)
    obtain ⟨ho, hd⟩ := hz q hq'
    dsimp only
    rw [ho, hd]
    exact h.zombie hq'

theorem answeredAt (ha : Answered S S' G c s ch e k r) {q : PId} (hq : (S.proc q).state ≠ .zombie)
    (hproc : ∀ p, p ≠ q → S'.proc p = S.proc p) (hx : ∀ p, p ≠ q → S'.exiting p = S.exiting p)
    (hother : ∀ u, u ≠ s → (S.thread u).state.active = true → u.1 = q → Seen S' q (G u).closing)
    (hself : Seen S' s.1 (e.next r (G s)).closing) :
    Closed { S' with code := update S'.code s (k r) } (learn G s e r) := by
  refine h.answered ha (fun u hus hu => ?_) hself fun p hp => ?_
  · by_cases huq : u.1 = q
    · rw [huq]
      exact hother u hus hu huq
    · exact (h.seen hu).of_same (by rw [hproc _ huq]) (by rw [hproc _ huq]) (hx _ huq)
  · have hpq : p ≠ q := by
      rintro rfl
      exact hq hp
    rw [hproc p hpq]
    exact ⟨rfl, rfl⟩

theorem of_keepsFiles (ha : Answered S S' G c s ch e k r) (he : e.keepsFiles = true) :
    Closed { S' with code := update S'.code s (k r) } (learn G s e r) := by
  have hperf := ha.perf
  have hf := (perform_frame hperf).files he
  have hs := ha.active
  refine h.answered ha (fun u _ hu => (h.seen hu).sameFiles hf) ?_
    fun q _ => ⟨hf.ofile q, hf.cwd q⟩
  refine Seen.sameFiles ?_ hf
  by_cases hl : ∃ fd, e = .ofile fd
  · obtain ⟨fd, rfl⟩ := hl
    cases hperf
    cases hfd : (S.proc s.1).ofile fd with
    | none => exact (h.seen hs).fd hfd
    | some f => exact h.seen hs
  · rw [next_closing he fun fd hfd => hl ⟨fd, hfd⟩]
    exact h.seen hs

theorem answeredOff (ha : Answered S S' G c s ch e k r) {q : PId}
    (hnot : (S.proc q).isReady = false) (hq : (S.proc q).state ≠ .zombie)
    (hproc : ∀ p, p ≠ q → S'.proc p = S.proc p) (hx : ∀ p, p ≠ q → S'.exiting p = S.exiting p)
    (hclosing : (e.next r (G s)).closing = (G s).closing) :
    Closed { S' with code := update S'.code s (k r) } (learn G s e r) := by
  refine h.answeredAt ha hq hproc hx (fun u _ hu huq => ?_) ?_
  · exact absurd huq (ha.inv.ne_of_live hnot (RunState.live_of_active hu))
  · have hsq := ha.inv.ne_of_live hnot (ha.inv.running_live ha.cpu)
    rw [hclosing]
    exact (h.seen ha.active).of_same (by rw [hproc _ hsq]) (by rw [hproc _ hsq])
      (hx _ hsq)

theorem of_procAlloc {k : Option PId → KProg Unit} {r : Option PId}
    (ha : Answered S S' G c s ch .procAlloc k r) :
    Closed { S' with code := update S'.code s (k r) } (learn G s .procAlloc r) := by
  have hperf' := ha.perf
  simp only [perform, procAlloc] at hperf'
  split at hperf'
  · cases hperf'
    exact h.answered ha (fun u _ hu => h.seen hu)
      (h.seen ha.active) fun _ _ => ⟨rfl, rfl⟩
  · rename_i q hq
    cases hperf'
    have hunused : (S.proc q).state = .unused := by simpa using first?_eq_some hq
    exact h.answeredOff ha
      (Entry.not_ready_of_not_live (e := S.proc q) (by simp [hunused])) (by simp [hunused])
      (fun p hp => update_of_ne hp _ _) (fun p hp => update_of_ne hp _ _) rfl

theorem of_setOfile {fd : Fin nofile} {f : Option Fs.FileId} {k : Unit → KProg Unit}
    (ha : Answered S S' G c s ch (.setOfile fd f) k ()) (hok : Tidy S (.run c ch))
    (hz : (S.proc s.1).state ≠ .zombie) :
    Closed { S' with code := update S'.code s (k ()) } (learn G s (.setOfile fd f) ()) := by
  have hperf := ha.perf
  cases hperf
  refine h.answeredAt ha hz (fun p hp => setProc_ne S hp _)
    (fun _ _ => rfl) (fun u _ hu hus => ?_) ?_
  · have hseen := hus ▸ h.seen hu
    cases f with
    | none =>
      -- a descriptor is closed: what was seen closed still is
      intro fds b hx
      obtain ⟨he, ho, hd⟩ := hseen fds b hx
      refine ⟨he, fun fd' hfd' => ?_, by simpa using hd⟩
      by_cases hff : fd' = fd
      · simp [hff]
      · simpa [hff] using ho fd' hfd'
    | some f =>
      rw [hseen.eq_none (hok.notExiting_ofile ha.cpu ha.code)]
      exact .none _ _
  · cases f with
    | none =>
      refine Seen.fd (fun fds b hx => ?_) (by simp)
      obtain ⟨he, ho, hd⟩ := h.seen ha.active fds b hx
      refine ⟨he, fun fd' hfd' => ?_, by simpa using hd⟩
      by_cases hff : fd' = fd
      · simp [hff]
      · simpa [hff] using ho fd' hfd'
    | some f =>
      have hnone : (G s).closing = none := ha.pre
      simp only [KOp.next, hnone]
      exact .none _ _

theorem of_setCwd {ip : Option Fs.Inum} {k : Unit → KProg Unit}
    (ha : Answered S S' G c s ch (.setCwd ip) k ()) (hok : Tidy S (.run c ch))
    (hz : (S.proc s.1).state ≠ .zombie) :
    Closed { S' with code := update S'.code s (k ()) } (learn G s (.setCwd ip) ()) := by
  have hperf := ha.perf
  cases hperf
  refine h.answeredAt ha hz (fun p hp => setProc_ne S hp _)
    (fun _ _ => rfl) (fun u _ hu hus => ?_) ?_
  · have hseen := hus ▸ h.seen hu
    cases ip with
    | none =>
      intro fds b hx
      obtain ⟨he, ho, -⟩ := hseen fds b hx
      exact ⟨he, by simpa using ho, fun _ => by simp⟩
    | some ip =>
      rw [hseen.eq_none (hok.notExiting_cwd ha.cpu ha.code)]
      exact .none _ _
  · cases ip with
    | none =>
      refine Seen.dir (fun fds b hx => ?_) (by simp)
      obtain ⟨he, ho, -⟩ := h.seen ha.active fds b hx
      exact ⟨he, by simpa using ho, fun _ => by simp⟩
    | some ip =>
      have hnone : (G s).closing = none := ha.pre
      simp only [KOp.next, hnone]
      exact .none _ _

theorem of_done (ha : Answered S S' G c s ch e k r) (hok : Tidy S (.run c ch)) :
    Closed { S' with code := update S'.code s (k r) } (learn G s e r) := by
  have hperf := ha.perf
  by_cases he : e.keepsFiles = true
  · exact h.of_keepsFiles ha he
  have hz : (S.proc s.1).state ≠ .zombie := by
    intro hz
    have := ha.inv.ready (ha.inv.running_live ha.cpu)
    simp [Entry.isReady, hz] at this
  cases e with
  | procAlloc => exact h.of_procAlloc ha
  | forkFile q fd =>
    have hembryo := ha.owns.embryo ha.pre
    cases hperf
    exact h.answeredOff ha (Entry.not_ready_of_embryo hembryo)
      (by simp [hembryo]) (fun p hp => setProc_ne S hp _) (fun _ _ => rfl) rfl
  | forkCwd q =>
    have hembryo := ha.owns.embryo ha.pre
    simp only [perform] at hperf
    split at hperf
    · cases hperf
    · cases hperf
      exact h.answeredOff ha (Entry.not_ready_of_embryo hembryo)
        (by simp [hembryo]) (fun p hp => setProc_ne S hp _) (fun _ _ => rfl) rfl
  | exitEnter =>
    simp only [perform] at hperf
    split at hperf
    · cases hperf
    · cases hperf
      refine h.answeredAt ha hz (fun _ _ => rfl)
        (fun p hp => update_of_ne hp _ _) (fun u _ hu hus fds b hx => ?_) ?_
      · have := hus ▸ h.seen hu fds b hx
        exact ⟨update_self _ _ _, this.2⟩
      · intro fds b hx
        cases hx
        exact ⟨update_self _ _ _, by simp, by simp⟩
  | setOfile fd f => exact h.of_setOfile ha hok hz
  | setCwd ip => exact h.of_setCwd ha hok hz
  | _ => exact absurd rfl he

theorem same (hf : SameFiles S S')
    (hact : ∀ u, (S'.thread u).state.active = true → (S.thread u).state.active = true)
    (hz : ∀ q, (S'.proc q).state = .zombie → (S.proc q).state = .zombie) : Closed S' G where
  seen hu := (h.seen (hact _ hu)).sameFiles hf
  zombie {q} hq := by
    rw [hf.ofile, hf.cwd]
    exact h.zombie (hz q hq)

theorem of_exitDone {k : Empty → KProg Unit} (hi : Inv S G) (hok : Tidy S (.run c ch))
    (hc : (S.cpu c).thread = some s) (hcode : S.code s = .vis .exitDone k)
    (hperf : S.perform c s ch .exitDone = some (.gone S')) : Closed S' G := by
  have hex := (exitDone_gone hperf).1
  obtain ⟨hf, -⟩ := gone_frame hperf
  have hs := hi.running_active hc
  have hall : (G s).AllClosed := (hi.pre_of_code hc hcode).2
  refine ⟨fun {u} hu => (h.seen (active_of_gone hperf hu)).sameFiles hf, fun {q} hq => ?_⟩
  rw [hf.ofile, hf.cwd]
  by_cases hqs : q = s.1
  · subst hqs
    obtain ⟨fds, hclosing, hfds⟩ := hall
    obtain ⟨-, ho, hd⟩ := h.seen hs fds true hclosing
    exact ⟨fun fd => ho fd (hfds fd), hd rfl⟩
  by_cases hpar : (S.proc q).parent = some s.1
  · obtain ⟨st, he, rfl | ⟨-, hidle⟩⟩ := hex.child hqs hpar
    · rw [he] at hq
      exact h.zombie hq
    · -- a child that looks idle was a zombie before: it is not being set up, and if it were
      -- ready it would have a thread
      refine h.zombie ?_
      have hidle' : (S.proc q).state.active = false := by
        refine Bool.eq_false_iff.mpr fun hact => ?_
        obtain ⟨t, ht⟩ := hi.peopled hact
        have := rowIdle_iff.mp (hidle (hi.row (RunState.live_of_active hact))) t
        rw [ht] at this
        cases this
      cases hst : (S.proc q).state with
      | unused =>
        rw [hi.orphan hst] at hpar
        cases hpar
      | embryo => exact absurd hst (hok.noEmbryo hc hcode hpar)
      | zombie => rfl
      | sleeping | runnable | running => simp [hst] at hidle'
  · rw [hex.other hqs hpar] at hq
    exact h.zombie hq

theorem step {G' : Slot → Ctx} {a : Act ncpu} (hi : Inv S G) (hok : Tidy S a)
    (hm : Moves S G a S' G') : Closed S' G' := by
  cases hm with
  | schedule hc hrun =>
    refine h.same (sameFiles_of_eq rfl rfl) (fun u hu => ?_) fun _ hq => hq
    rename_i c s
    by_cases hus : u = s
    · have hs := runnable_of_canRun hrun
      simp [hus, hs]
    · simpa [dispatch, hus] using hu
  | done hc hcode hperf => exact h.of_done ⟨hi, hc, hcode, hperf, hok.1.hasOthers hc hcode⟩ hok
  | sleep hc hcode hperf =>
    refine h.same (sameFiles_of_eq rfl rfl) (fun u hu => ?_) fun _ hq => hq
    rename_i s _ _ _ _
    by_cases hus : u = s
    · rw [hus]
      exact hi.running_active hc
    · simpa [sleepOn, Kernel.leave, hus] using hu
  | gone hc hcode hperf =>
    obtain rfl | rfl := gone_cases hperf
    · refine h.same (gone_frame hperf).1 (fun u hu => active_of_gone hperf hu) fun q hq => ?_
      obtain rfl := threadExit_gone hperf
      exact hq
    · exact h.of_exitDone hi hok hc hcode hperf
  | enter hc hcode =>
    refine ⟨fun {u} hu => ?_, h.zombie⟩
    rename_i s _
    by_cases hus : u = s
    · subst hus
      rw [update_self]
      exact .none _ _
    · rw [update_of_ne hus]
      exact h.seen hu
  | tick hc hcode hs =>
    refine h.same (sameFiles_of_eq rfl rfl) (fun u hu => ?_) fun _ hq => hq
    rename_i s _ _ _
    by_cases hus : u = s
    · rw [hus]
      exact hi.running_active hc
    · simpa [yield, Kernel.leave, hus] using hu
  | intr =>
    have hq := quiet_wakeup1 S
    exact h.same (sameFiles_of_eq rfl rfl) (fun u hu => (hq _).active_eq u ▸ hu) fun _ hz => hz

end

theorem of_booted (h : Booted S) : Closed S fun _ => .start := by
  obtain ⟨k, d, avail, -, -, -, rfl⟩ := h
  refine ⟨fun _ => .none _ _, fun {q} hq => ?_⟩
  by_cases hq0 : q = 0
  · subst hq0
    cases hq
  · simp [boot, hq0, Entry.empty] at hq

end Closed

theorem closed_of_reach (h : Reach step Tidy Booted S) : ∃ G, Inv S G ∧ Closed S G := by
  refine Reach.invariant (I := fun S => ∃ G, Inv S G ∧ Closed S G)
    (fun S hS => ⟨_, .of_booted hS, .of_booted hS⟩) ?_ h
  rintro S a S' ⟨G, hi, hcl⟩ hok hs
  obtain ⟨G', hm⟩ := Moves.of_step G hs
  exact ⟨G', hi.step hok.1 hm, hcl.step hi hok hm⟩

/-! ## Zombies -/

theorem Tables.not_active (h : Tables S) {q : PId} (hq : (S.proc q).state.live = false) :
    (∀ c s, (S.cpu c).thread = some s → s.1 ≠ q) ∧ ∀ t, (S.thread (q, t)).state.active = false := by
  have hnot := Entry.not_ready_of_not_live hq
  refine ⟨fun c s hc => h.ne_of_live hnot (h.running_live hc), fun t => ?_⟩
  exact Bool.eq_false_iff.mpr fun ht =>
    Bool.false_ne_true ((h.not_live hnot t).symm.trans (RunState.live_of_active ht))

theorem Closed.dead (h : Closed S G) (hi : Inv S G) {q : PId} (hq : (S.proc q).state = .zombie) :
    Dead S q := by
  obtain ⟨ho, hd⟩ := h.zombie hq
  obtain ⟨hoff, hstill⟩ := hi.not_active (q := q) (by simp [hq])
  exact ⟨ho, hd, hoff, hstill⟩

theorem Inv.not_live_step {G' : Slot → Ctx} {a : Act ncpu} (h : Inv S G) (hok : Orderly S a)
    (hm : Moves S G a S' G') {q : PId} (hq : (S.proc q).state.live = false)
    (hre : S.reallocated a ≠ some q) : (S'.proc q).state.live = false := by
  cases hm with
  | schedule | sleep | enter | tick | intr => exact hq
  | done hc hcode hperf =>
    obtain hsame | ⟨hemb, -⟩ | ⟨-, hun⟩ | ⟨-, rfl, hal, -⟩ :=
      Answered.entry ⟨h, hc, hcode, hperf, hok.hasOthers hc hcode⟩ q
    · dsimp only
      rw [hsame]
      exact hq
    · simp [hemb] at hq
    · dsimp only
      rw [hun]
      rfl
    · simp only [reallocated, nextOp_eq hc hcode] at hre
      exact absurd hal hre
  | gone hc hcode hperf =>
    obtain rfl | rfl := gone_cases hperf
    · obtain rfl := threadExit_gone hperf
      exact hq
    · have hex := (exitDone_gone hperf).1
      rename_i s _ _
      by_cases hqs : q = s.1
      · rw [hqs, hex.state]
        rfl
      by_cases hpar : (S.proc q).parent = some s.1
      · obtain ⟨st, he, rfl | ⟨rfl, -⟩⟩ := hex.child hqs hpar
        · rw [he]
          exact hq
        · rw [he]
          rfl
      · rw [hex.other hqs hpar]
        exact hq

/-- **A zombie is dead.**  In every state that tidy steps reach: a zombie has no open file,
no current directory and no thread that is executing or could; along tidy steps this stays
so for its threads until `allocproc` takes the entry; and a page that `wait` frees is the
kernel stack of a dead process or belongs to its address space. -/
theorem zombie_is_dead (h : Reach step Tidy Booted S) :
    (∀ q, (S.proc q).state = .zombie → Dead S q) ∧
    (∀ q, (S.proc q).state = .zombie →
      ∀ S', Reach step (fun T a => Tidy T a ∧ T.reallocated a ≠ some q) (· = S) S' →
        (∀ c s, (S'.cpu c).thread = some s → s.1 ≠ q) ∧
        ∀ t, (S'.thread (q, t)).state.active = false) ∧
    (∀ c s ch r S', S.perform c s ch .wait = some (.done r S') → ∀ n, S'.page n ≠ S.page n →
      ∃ q, Dead S q ∧
        ((S.proc q).kstack = n * kstacksize ∨ S.page n = .vm (S.proc q).pgdir)) := by
  obtain ⟨G, hi, hcl⟩ := closed_of_reach h
  refine ⟨fun q hq => hcl.dead hi hq, fun q hq S' hS' => ?_, fun c s ch r S' hperf n hn => ?_⟩
  · have hrun : ∃ G', Inv S' G' ∧ (S'.proc q).state.live = false := by
      refine Reach.invariant (I := fun T => ∃ G', Inv T G' ∧ (T.proc q).state.live = false) ?_ ?_ hS'
      · rintro _ rfl
        exact ⟨G, hi, by simp [hq]⟩
      · rintro T a T' ⟨GT, hiT, hT⟩ ⟨hok, hre⟩ hs
        obtain ⟨GT', hm⟩ := Moves.of_step GT hs
        exact ⟨GT', hiT.step hok.1 hm, hiT.not_live_step hok.1 hm hT hre⟩
    obtain ⟨G', hi', hlive⟩ := hrun
    exact hi'.not_active hlive
  · obtain ⟨q, hq, -, hpage⟩ := wait_frees hperf hn
    exact ⟨q, hcl.dead hi hq, hpage⟩

/-- The child calls `exit`. -/
def childExits : List (Act 2) := childRuns ++ calls cpu1 .exit 28

set_option maxRecDepth 10000 in
/-- A child that has exited is dead. -/
theorem zombie_is_dead_childExits :
    ∃ S : Kernel 2, Reach step Tidy Booted S ∧ (S.proc 1).state = .zombie ∧ Dead S 1 := by
  have hm : Meets step Tidy booted childExits := by decide +kernel
  have he : endsIn step booted childExits (fun S => (S.proc 1).state == .zombie) = true := by
    decide +kernel
  obtain ⟨S, hS, hz⟩ := Reach.of_endsIn booted_booted he hm
  exact ⟨S, hS, by simpa using hz, (zombie_is_dead hS).1 1 (by simpa using hz)⟩

/-- The only thread of the child calls `kthread_exit`. -/
def childThreadExits : List (Act 2) := childRuns ++ calls cpu1 .kthreadExit 3

set_option maxRecDepth 10000 in
/-- The child is a zombie while it runs on the second processor with its current directory
open; and the first process, in `wait`, frees the kernel stack that it is on. -/
theorem zombie_runs_on :
    (∃ S : Kernel 2, Reach step anyStep Booted S ∧ ((S.proc 1).state == .zombie &&
      (S.proc 1).cwd.isSome && (S.cpu 1).thread == some (1, 0)) = true) ∧
    ∃ S : Kernel 2, Reach step anyStep Booted S ∧ (S.page 20 == .free &&
      (S.cpu 1).thread == some (1, 0) && (S.cpu 1).ktop == 20 * kstacksize + kstacksize) = true := by
  have hz : endsIn step booted childThreadExits (fun S => (S.proc 1).state == .zombie &&
      (S.proc 1).cwd.isSome && (S.cpu 1).thread == some (1, 0)) = true := by decide +kernel
  have hw : endsIn step booted (childThreadExits ++ calls cpu0 .wait 3) (fun S => S.page 20 == .free &&
      (S.cpu 1).thread == some (1, 0) && (S.cpu 1).ktop == 20 * kstacksize + kstacksize) = true := by
    decide +kernel
  exact ⟨Reach.of_endsIn booted_booted hz, Reach.of_endsIn booted_booted hw⟩

end Xv6.Proc
