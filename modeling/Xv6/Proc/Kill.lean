import Xv6.Proc.Descent

/-!
# `kill` and its target

`kill` looks for the first entry of the process table that has the identifier, and does not
look at the state of the entry.  An unused entry has an identifier too: that of the last
process that `fork` gave up in it, or 0, if there was none or the last one has been reaped.
So `kill` can mark an unused entry, and answers that it has found a process; and `allocproc`
leaves the mark where it is, so that the next process in the entry is killed before it
starts.  The mark of a process that is killed while `fork` sets it up stays behind in the
same way when that `fork` fails.
-/

namespace Xv6.Proc

open Function Transition Kernel

variable {ncpu : ℕ} {S S' : Kernel ncpu} {G : Slot → Ctx} {c : Fin ncpu} {s : Slot}
  {ch : Choice} {e : KOp} {k : e.Ans → KProg Unit} {r : e.Ans}

/-! ## What `kill` is for -/

/-- `S'` is `S` with process `q` marked and its sleeping threads made runnable. -/
structure Struck (S S' : Kernel ncpu) (q : PId) : Prop where
  entry : S'.proc q = { S.proc q with killed := true }
  other : ∀ p, p ≠ q → S'.proc p = S.proc p
  woken : ∀ t, (S.thread (q, t)).state = .sleeping →
    S'.thread (q, t) = { S.thread (q, t) with state := .runnable }
  still : ∀ u : Slot, u.1 ≠ q ∨ (S.thread u).state ≠ .sleeping → S'.thread u = S.thread u

/-- **What `kill` is for**: it is answered 0 if and only if a process has the identifier, and
then it strikes that process; otherwise it does nothing. -/
structure KillExact (S : Kernel ncpu) (pid : Int32) : Prop where
  found : (S.kill pid).1 = 0 ↔ ∃ q, (S.proc q).state ≠ .unused ∧ (S.proc q).pid = pid
  struck : (S.kill pid).1 = 0 →
    ∃ q, (S.proc q).state ≠ .unused ∧ (S.proc q).pid = pid ∧ Struck S (S.kill pid).2 q
  missed : (S.kill pid).1 ≠ 0 → (S.kill pid).2 = S

namespace Kernel

/-- The entry at which the loop of `kill` stops. -/
def pidEntry (S : Kernel ncpu) (pid : Int32) : Option PId := first? fun q => (S.proc q).pid == pid

/-- Test for the second half of `Sparing`. -/
def sparing (S : Kernel ncpu) : Act ncpu → Bool
  | .run c ch =>
    match S.nextOp c with
    | some (_, .kill pid) => (S.pidEntry pid).all fun q => (S.proc q).state != .unused
    | some (_, .procAlloc) => S.nextpid != 0 && (S.pidEntry S.nextpid).isNone
    | some (_, .stackAlloc q) => !ch.pages.isEmpty || !(S.proc q).killed
    | some (_, .forkFail q) => !(S.proc q).killed
    | _ => true
  | _ => true

theorem pidEntry_pid {pid : Int32} {q : PId} (h : S.pidEntry pid = some q) :
    (S.proc q).pid = pid := by
  simpa using first?_eq_some h

theorem pidEntry_none {pid : Int32} (h : S.pidEntry pid = none) (q : PId) :
    (S.proc q).pid ≠ pid := by
  simpa using List.find?_eq_none.mp h q (List.mem_finRange q)

theorem kill_none {pid : Int32} (h : S.pidEntry pid = none) : S.kill pid = (-1, S) := by
  unfold pidEntry at h
  unfold kill
  rw [h]

theorem kill_some {pid : Int32} {q : PId} (h : S.pidEntry pid = some q) :
    (S.kill pid).1 = 0 ∧
    (S.kill pid).2.proc = update S.proc q { S.proc q with killed := true } ∧
    ∀ u : Slot, (S.kill pid).2.thread u =
      if u.1 = q ∧ (S.proc q).threads ∧ (S.thread u).state = .sleeping then
        { S.thread u with state := .runnable }
      else S.thread u := by
  unfold pidEntry at h
  unfold kill
  rw [h]
  exact ⟨rfl, rfl, fun _ => rfl⟩

end Kernel

/-- The orderly steps in which no `kill` stops at an unused entry, no `fork` gives up a
process that has been killed, and `allocproc` hands out an identifier other than 0 that no
entry has. -/
def Sparing (S : Kernel ncpu) (a : Act ncpu) : Prop := Orderly S a ∧ S.sparing a = true

instance (S : Kernel ncpu) (a : Act ncpu) : Decidable (Sparing S a) :=
  inferInstanceAs (Decidable (_ ∧ _))

/-- An unused entry is not marked, and a process has its identifier to itself. -/
structure Tagged (S : Kernel ncpu) : Prop where
  unmarked : ∀ {q}, (S.proc q).state = .unused → (S.proc q).killed = false
  pid_ne : ∀ {q}, (S.proc q).state ≠ .unused → (S.proc q).pid ≠ 0
  unique : ∀ {p q}, (S.proc p).state ≠ .unused → (S.proc p).pid = (S.proc q).pid → p = q

theorem Tagged.kill_exact_iff (h : Tagged S) (ht : Tables S) (pid : Int32) :
    KillExact S pid ↔ ∀ q, S.pidEntry pid = some q → (S.proc q).state ≠ .unused := by
  constructor
  · intro hk q hq
    obtain ⟨p, hp, hpid⟩ := hk.found.mp (kill_some hq).1
    rwa [h.unique hp (hpid.trans (pidEntry_pid hq).symm)] at hp
  · intro hused
    cases hq : S.pidEntry pid with
    | none =>
      have hkill := kill_none hq
      have hne : (S.kill pid).1 ≠ 0 := by
        rw [hkill]
        exact show (-1 : Int32) ≠ 0 by decide
      exact ⟨⟨fun h0 => absurd h0 hne, fun ⟨q, _, hp⟩ => absurd hp (pidEntry_none hq q)⟩,
        fun h0 => absurd h0 hne, fun _ => by rw [hkill]⟩
    | some q =>
      obtain ⟨h0, hproc, hthread⟩ := kill_some hq
      have hq' := hused q hq
      refine ⟨⟨fun _ => ⟨q, hq', pidEntry_pid hq⟩, fun _ => h0⟩,
        fun _ => ⟨q, hq', pidEntry_pid hq, ?_⟩, fun hne => absurd h0 hne⟩
      refine ⟨by rw [hproc, update_self], fun p hp => by rw [hproc, update_of_ne hp],
        fun t hs => ?_, fun u hu => ?_⟩
      · -- a thread that sleeps belongs to a process that has its row
        have hready := ht.ready (s := (q, t)) (by simp [hs])
        have hrow := ht.row (Entry.live_of_isReady hready)
        rw [hthread, if_pos ⟨rfl, hrow, hs⟩]
      · rw [hthread, if_neg fun hc => hu.elim (absurd hc.1) (absurd hc.2.2)]

/-! ## Steps -/

/-- The operations that mark an entry, give it an identifier, or give it back. -/
@[simp] def KOp.tags : KOp → Bool
  | .setKilled | .procAlloc | .stackAlloc _ | .forkFail _ | .wait | .kill _ => true
  | _ => false

theorem setProc_killed (S : Kernel ncpu) (p : PId) {f : Entry → Entry}
    (hf : ∀ e, (f e).killed = e.killed) (z : PId) :
    ((S.setProc p f).proc z).killed = (S.proc z).killed := by
  by_cases hz : z = p
  · rw [hz, setProc_self, hf]
  · rw [setProc_ne _ hz]

theorem killed_of_done (hperf : S.perform c s ch e = some (.done r S')) (he : e.tags = false)
    (z : PId) : (S'.proc z).killed = (S.proc z).killed := by
  cases e with
  | setKilled | procAlloc | stackAlloc | forkFail | wait | kill => cases he
  | copyuvm =>
    obtain ⟨-, rfl⟩ | ⟨-, page, rfl, -⟩ := allocOr_done hperf <;>
      exact setProc_killed _ _ (by simp) z
  | forkThread q =>
    cases hperf
    exact setProc_killed S q (f := fun e => { e with parent := some s.1 }) (by simp) z
  | forkDone q =>
    cases hperf
    exact setProc_killed S q (f := fun e => { e with state := .runnable }) (by simp) z
  | setPgdir | setOfile | setCwd =>
    cases hperf
    exact setProc_killed S _ (by simp) z
  | forkFile =>
    cases hperf
    refine setProc_killed S _ (fun _ => ?_) z
    split <;> rfl
  | forkCwd =>
    simp only [perform] at hperf
    split at hperf <;> cases hperf
    exact setProc_killed S _ (by simp) z
  | threadExit =>
    obtain ⟨-, hperf⟩ := withRow_done hperf
    split at hperf <;> cases hperf
    exact setProc_killed (S.setThread s _) _ (by simp) z
  | threadAlloc =>
    cases (withRow_done hperf).2
    unfold threadAlloc
    split <;> rfl
  | threadJoin =>
    obtain ⟨-, hperf⟩ := withRow_done hperf
    repeat' split at hperf
    all_goals cases hperf
    all_goals rfl
  | pipeAlloc =>
    obtain ⟨-, rfl⟩ | ⟨-, page, rfl, -⟩ := allocOr_done hperf <;> rfl
  | setupkvm | allocuvm =>
    simp only [perform] at hperf
    split at hperf
    all_goals first
      | cases hperf
        rfl
      | obtain ⟨S₁, hk, hperf⟩ := Option.map_eq_some_iff.mp hperf
        obtain ⟨page, rfl, -⟩ := kalloc_eq hk
        cases hperf
        rfl
  | freevm =>
    simp only [perform] at hperf
    split at hperf <;> cases hperf
    rename_i hf
    obtain ⟨page, rfl, -⟩ := freevm_eq hf
    rfl
  | exitDone | panic => exact r.elim
  | _ =>
    simp only [perform] at hperf
    repeat' split at hperf
    all_goals cases hperf
    all_goals rfl

theorem exitTables_tags (S : Kernel ncpu) (p : PId) (mem : ℕ) (z : PId) :
    ((S.exitTables p mem).proc z).killed = (S.proc z).killed ∧
      ((S.exitTables p mem).proc z).pid = (S.proc z).pid := by
  have hrep : ∀ T : Kernel ncpu, ((T.reparent p mem).proc z).killed = (T.proc z).killed ∧
      ((T.reparent p mem).proc z).pid = (T.proc z).pid := by
    intro T
    simp only [reparent]
    split_ifs <;> exact ⟨rfl, rfl⟩
  by_cases hz : z = p
  · subst hz
    simp only [exitTables, setProc_self]
    exact hrep (S.wakeup1 _)
  · simp only [exitTables, setProc_ne _ hz]
    exact hrep (S.wakeup1 _)

theorem Answered.unused (ha : Answered S S' G c s ch e k r) (he : e.tags = false) (z : PId) :
    (S'.proc z).state = .unused ↔ (S.proc z).state = .unused := by
  have hperf := ha.perf
  have hpre := ha.pre
  have hown := ha.owns
  by_cases hq : e.quiet = true
  · rw [((perform_frame hperf).quiet hq).state z]
  cases e with
  | procAlloc | stackAlloc | forkFail | wait => cases he
  | procInit | threadInit | threadReady =>
    cases hperf
    exact Iff.rfl
  | forkThread q =>
    cases hperf
    by_cases hz : z = q <;> simp [forkThread, hz]
  | forkDone q =>
    cases hperf
    by_cases hz : z = q
    · simp [hz, hown.embryo hpre]
    · simp [hz]
  | threadAlloc =>
    cases (withRow_done hperf).2
    unfold threadAlloc
    split <;> exact Iff.rfl
  | threadExit => exact ha.not_last.elim
  | exitDone => exact r.elim
  | _ => exact absurd rfl hq

namespace Tagged

theorem of_same (h : Tagged S) (hk : ∀ z, (S'.proc z).killed = (S.proc z).killed)
    (hp : ∀ z, (S'.proc z).pid = (S.proc z).pid)
    (hs : ∀ z, (S'.proc z).state = .unused ↔ (S.proc z).state = .unused) : Tagged S' where
  unmarked {q} hq := by
    rw [hk]
    exact h.unmarked ((hs q).mp hq)
  pid_ne {q} hq := by
    rw [hp]
    exact h.pid_ne (mt (hs q).mpr hq)
  unique {p q} hne heq := by
    rw [hp, hp] at heq
    exact h.unique (mt (hs p).mpr hne) heq

theorem of_proc (h : Tagged S) (hp : S'.proc = S.proc) : Tagged S' :=
  h.of_same (by simp [hp]) (by simp [hp]) (by simp [hp])

theorem given_back (h : Tagged S) {q : PId} (hother : ∀ z, z ≠ q → S'.proc z = S.proc z)
    (hq : (S'.proc q).state = .unused) (hk : (S'.proc q).killed = false)
    (hp : (S'.proc q).pid = (S.proc q).pid ∨ (S'.proc q).pid = 0) : Tagged S' := by
  have hne : ∀ {z}, (S'.proc z).state ≠ .unused → z ≠ q := by
    rintro z hz rfl
    exact hz hq
  refine ⟨fun {z} hz => ?_, fun {z} hz => ?_, fun {p z} hpu heq => ?_⟩
  · by_cases hzq : z = q
    · rw [hzq, hk]
    · rw [hother z hzq] at hz ⊢
      exact h.unmarked hz
  · have hzq := hne hz
    rw [hother z hzq] at hz ⊢
    exact h.pid_ne hz
  · have hpq := hne hpu
    rw [hother p hpq] at hpu heq
    by_cases hzq : z = q
    · subst hzq
      obtain hp | hp := hp
      · exact h.unique hpu (heq.trans hp)
      · exact absurd (heq.trans hp) (h.pid_ne hpu)
    · rw [hother z hzq] at heq
      exact h.unique hpu heq

theorem taken (h : Tagged S) (h0 : S.nextpid ≠ 0) (hnew : S.pidEntry S.nextpid = none) :
    Tagged S.procAlloc.2 := by
  unfold procAlloc
  split
  · exact h
  · rename_i q hq
    have hun : (S.proc q).state = .unused := by simpa using first?_eq_some hq
    refine ⟨fun {z} hz => ?_, fun {z} hz => ?_, fun {p z} hp heq => ?_⟩
    · by_cases hzq : z = q
      · simp [hzq] at hz
      · simp only [setProc_ne _ hzq] at hz ⊢
        exact h.unmarked hz
    · by_cases hzq : z = q
      · simpa [hzq] using h0
      · simp only [setProc_ne _ hzq] at hz ⊢
        exact h.pid_ne hz
    · have hfresh := pidEntry_none hnew
      by_cases hpq : p = q <;> by_cases hzq : z = q
      · rw [hpq, hzq]
      · simp only [hpq, setProc_self, setProc_ne _ hzq] at heq
        exact absurd heq.symm (hfresh z)
      · simp only [hzq, setProc_self, setProc_ne _ hpq] at heq
        exact absurd heq (hfresh p)
      · simp only [setProc_ne _ hpq, setProc_ne _ hzq] at hp heq
        exact h.unique hp heq

theorem marked (h : Tagged S) {q : PId} (hq : (S.proc q).state ≠ .unused)
    (hproc : S'.proc = update S.proc q { S.proc q with killed := true }) : Tagged S' := by
  have hsame : ∀ z, (S'.proc z).state = (S.proc z).state ∧ (S'.proc z).pid = (S.proc z).pid := by
    intro z
    rw [hproc]
    by_cases hz : z = q
    · rw [hz, update_self]
      exact ⟨rfl, rfl⟩
    · rw [update_of_ne hz]
      exact ⟨rfl, rfl⟩
  refine ⟨fun {z} hz => ?_, fun {z} hz => ?_, fun {p z} hp heq => ?_⟩
  · rw [(hsame z).1] at hz
    have hzq : z ≠ q := by
      rintro rfl
      exact hq hz
    rw [hproc, update_of_ne hzq]
    exact h.unmarked hz
  · rw [(hsame z).1] at hz
    rw [(hsame z).2]
    exact h.pid_ne hz
  · rw [(hsame p).1] at hp
    rw [(hsame p).2, (hsame z).2] at heq
    exact h.unique hp heq

theorem sparing_eq (hok : Sparing S (.run c ch)) (hc : (S.cpu c).thread = some s)
    (hcode : S.code s = .vis e k) :
    (∀ pid, e = .kill pid → ∀ q, S.pidEntry pid = some q → (S.proc q).state ≠ .unused) ∧
    (e = .procAlloc → S.nextpid ≠ 0 ∧ S.pidEntry S.nextpid = none) ∧
    (∀ q, e = .stackAlloc q → ch.pages = [] → (S.proc q).killed = false) ∧
    ∀ q, e = .forkFail q → (S.proc q).killed = false := by
  have hsp := hok.2
  simp only [sparing, nextOp_eq hc hcode] at hsp
  refine ⟨?_, ?_, ?_, ?_⟩
  · rintro pid rfl q hq
    simpa [hq] using hsp
  · rintro rfl
    simpa using hsp
  · rintro q rfl hnil
    simpa [hnil] using hsp
  · rintro q rfl
    simpa using hsp

theorem of_done (h : Tagged S) (ha : Answered S S' G c s ch e k r) (hok : Sparing S (.run c ch)) :
    Tagged S' := by
  have hperf := ha.perf
  obtain ⟨hkill, hproc, hstack, hfail⟩ := sparing_eq hok ha.cpu ha.code
  by_cases he : e.tags = false
  · refine h.of_same (killed_of_done hperf he) ((marks_of_done hperf).pid ?_) (ha.unused he)
    cases e with
    | procAlloc | wait => cases he
    | _ => rfl
  cases e with
  | setKilled =>
    cases hperf
    refine h.marked (q := s.1) (fun hun => ?_) rfl
    have := ha.inv.ready (ha.inv.running_live ha.cpu)
    simp [Entry.isReady, hun] at this
  | procAlloc =>
    cases hperf
    obtain ⟨h0, hnew⟩ := hproc rfl
    exact h.taken h0 hnew
  | stackAlloc q =>
    obtain ⟨hr, rfl⟩ | ⟨-, page, rfl, -⟩ := allocOr_done hperf
    · have hnil : ch.pages = [] := by
        cases hpages : ch.pages with
        | nil => rfl
        | cons n ns =>
          simp only [perform, hpages, List.take_succ_cons, allocOr, Option.map_eq_some_iff] at hperf
          obtain ⟨S₁, -, hdone⟩ := hperf
          simp [hr] at hdone
      exact h.given_back (q := q) (fun z hz => by simp [hz]) (by simp)
        (by simpa using hstack q rfl hnil) (.inl (by simp))
    · refine h.of_same (setProc_killed _ _ fun _ => rfl) (fun z => ?_) fun z => ?_ <;>
        by_cases hz : z = q <;> simp [hz]
  | forkFail q =>
    obtain ⟨page, rfl, -⟩ := forkFail_done hperf
    exact h.given_back (q := q) (fun z hz => by simp [hz]) (by simp) (by simpa using hfail q rfl)
      (.inl (by simp))
  | wait =>
    obtain ⟨q, page, -, -, -, -, -, rfl⟩ | ⟨-, -, -, rfl⟩ := wait_cases hperf
    · exact h.given_back (q := q) (fun z hz => by simp [hz]) (by simp) (by simp) (.inr (by simp))
    · exact h
  | kill pid =>
    cases hperf
    cases hq : S.pidEntry pid with
    | none =>
      rw [kill_none hq]
      exact h
    | some q => exact h.marked (hkill pid rfl q hq) (kill_some hq).2.1
  | _ => exact absurd rfl he

theorem of_gone (h : Tagged S) (hi : Inv S G) (hc : (S.cpu c).thread = some s)
    (hperf : S.perform c s ch e = some (.gone S')) : Tagged S' := by
  obtain rfl | rfl := gone_cases hperf
  · obtain rfl := threadExit_gone hperf
    exact h.of_proc rfl
  · have hex := (exitDone_gone hperf).1
    obtain ⟨-, hperf⟩ := withRow_gone hperf
    cases hperf
    have htags := exitTables_tags S s.1 ch.n
    refine h.of_same (fun z => (htags z).1) (fun z => (htags z).2) fun z => ?_
    by_cases hz : z = s.1
    · have hready := hi.ready (hi.running_live hc)
      rw [hz, hex.state]
      refine ⟨fun hun => absurd hun (by simp), fun hun => ?_⟩
      simp [Entry.isReady, hun] at hready
    · by_cases hpar : (S.proc z).parent = some s.1
      · -- a child is in use, so it does not matter if `exit` makes a zombie of it
        have hused : (S.proc z).state ≠ .unused := fun hun => by simp [hi.orphan hun] at hpar
        obtain ⟨st, heq, rfl | ⟨rfl, -⟩⟩ := hex.child hz hpar <;> simp [heq, hused]
      · rw [hex.other hz hpar]

theorem step {G' : Slot → Ctx} {a : Act ncpu} (h : Tagged S) (hi : Inv S G) (hok : Sparing S a)
    (hm : Moves S G a S' G') : Tagged S' := by
  cases hm with
  | done hc hcode hperf => exact (h.of_done ⟨hi, hc, hcode, hperf, hok.1.hasOthers hc hcode⟩ hok).of_proc rfl
  | gone hc hcode hperf => exact h.of_gone hi hc hperf
  | schedule | sleep | enter | tick | intr => exact h.of_proc rfl

theorem of_booted (h : Booted S) : Tagged S := by
  obtain ⟨k, d, avail, -, -, -, rfl⟩ := h
  have hproc : ∀ q, q ≠ 0 → (boot ncpu k d avail).proc q = .empty := fun q hq => by simp [boot, hq]
  have hzero : ∀ {q}, ((boot ncpu k d avail).proc q).state ≠ .unused → q = 0 := by
    intro q hq
    by_contra hne
    exact hq (by rw [hproc q hne]; rfl)
  refine ⟨fun {q} hq => ?_, fun {q} hq => ?_, fun {p q} hp heq => ?_⟩
  · by_cases hq0 : q = 0
    · rw [hq0]
      rfl
    · rw [hproc q hq0]
      rfl
  · rw [hzero hq]
    exact show (1 : Int32) ≠ 0 by decide
  · rw [hzero hp] at heq ⊢
    by_contra hne
    rw [hproc q fun h0 => hne h0.symm] at heq
    exact absurd heq (show (1 : Int32) ≠ 0 by decide)

end Tagged

theorem tagged_of_reach (h : Reach step Sparing Booted S) : Tagged S ∧ ∃ G, Inv S G := by
  refine Reach.invariant (I := fun S => Tagged S ∧ ∃ G, Inv S G)
    (fun S hS => ⟨.of_booted hS, _, .of_booted hS⟩) ?_ h
  rintro S a S' ⟨ht, G, hG⟩ hok hs
  obtain ⟨G', hm⟩ := Moves.of_step G hs
  exact ⟨ht.step hG hok hm, G', hG.step hok.1 hm⟩

theorem procAlloc_killed {q : PId} (h : S.procAlloc.1 = some q) :
    (S.proc q).state = .unused ∧ (S.procAlloc.2.proc q).killed = (S.proc q).killed := by
  unfold procAlloc at h ⊢
  split at h
  · cases h
  · rename_i q' hq
    cases h
    exact ⟨by simpa using first?_eq_some hq, by simp⟩

/-- **`kill` hits its target, and only that, unless it stops at an unused entry.**  In every
run of orderly steps in which no `kill` stops at an unused entry, no `fork` gives up a process
that has been killed and identifiers are not handed out twice, `kill(pid)` does what it is for
if and only if the first entry with this identifier, if there is one, is in use; and every
process that `allocproc` returns is unmarked. -/
theorem kill_hits_target (h : Reach step Sparing Booted S) :
    (∀ pid, KillExact S pid ↔ ∀ q, S.pidEntry pid = some q → (S.proc q).state ≠ .unused) ∧
      ∀ q, S.procAlloc.1 = some q → (S.procAlloc.2.proc q).killed = false := by
  obtain ⟨htag, G, hi⟩ := tagged_of_reach h
  refine ⟨htag.kill_exact_iff hi.toTables, fun q hq => ?_⟩
  obtain ⟨hun, hk⟩ := procAlloc_killed hq
  exact hk.trans (htag.unmarked hun)

set_option maxRecDepth 10000 in
/-- `init` has a child, whose identifier is 2: killing it is exact. -/
theorem kill_hits_child :
    ∃ S : Kernel 2, Reach step Sparing Booted S ∧ S.pidEntry 2 = some 1 ∧ KillExact S 2 ∧
      ∃ q, S.procAlloc.1 = some q ∧ (S.procAlloc.2.proc q).killed = false := by
  have hm : Meets step Sparing booted childRuns := by decide +kernel
  have he : endsIn step booted childRuns (fun S => S.pidEntry 2 == some 1 &&
      (S.proc 1).state != .unused && S.procAlloc.1 == some 2) = true := by decide +kernel
  obtain ⟨S, hS, htest⟩ := Reach.of_endsIn booted_booted he hm
  simp only [Bool.and_eq_true, beq_iff_eq, bne_iff_ne] at htest
  obtain ⟨⟨hpid, hused⟩, halloc⟩ := htest
  obtain ⟨hkill, hfresh⟩ := kill_hits_target hS
  refine ⟨S, hS, hpid, (hkill 2).mpr fun q hq => ?_, 2, halloc, hfresh 2 halloc⟩
  cases hpid.symm.trans hq
  exact hused

/-- `init` calls `kill(0)`. -/
def initKills : List (Act 2) := initRuns ++ calls cpu0 (.kill 0) 4

set_option maxRecDepth 10000 in
/-- **`kill(0)` marks an unused entry.**  The first process calls `kill(0)`: no process has
the identifier 0, but the call finds one; and the next process that `allocproc` returns is
marked. -/
theorem kill_marks_unused :
    (∃ S : Kernel 2, Reach step anyStep Booted S ∧ ¬KillExact S 0) ∧
      ∃ S : Kernel 2, Reach step anyStep Booted S ∧
        ∃ q, S.procAlloc.1 = some q ∧ (S.procAlloc.2.proc q).killed = true := by
  constructor
  · have he : endsIn step booted initRuns (fun S => (S.kill 0).1 == 0 &&
        (List.finRange nproc).all fun q =>
          (S.proc q).state == .unused || (S.proc q).pid != 0) = true := by decide +kernel
    obtain ⟨S, hS, htest⟩ := Reach.of_endsIn booted_booted he
    simp only [Bool.and_eq_true, beq_iff_eq, List.all_eq_true, Bool.or_eq_true, bne_iff_ne] at htest
    refine ⟨S, hS, fun hk => ?_⟩
    obtain ⟨q, hused, hpid⟩ := hk.found.mp htest.1
    obtain hun | hne := htest.2 q (List.mem_finRange q)
    · exact hused hun
    · exact hne hpid
  · have he : endsIn step booted initKills (fun S => S.procAlloc.1 == some 1 &&
        (S.procAlloc.2.proc 1).killed) = true := by decide +kernel
    obtain ⟨S, hS, htest⟩ := Reach.of_endsIn booted_booted he
    simp only [Bool.and_eq_true, beq_iff_eq] at htest
    exact ⟨S, hS, 1, htest⟩

end Xv6.Proc
