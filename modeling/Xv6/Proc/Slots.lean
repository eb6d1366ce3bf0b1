import Xv6.Proc.Join
import Xv6.Proc.Descent
import Mathlib.Data.Finset.Card
import Mathlib.Data.Fintype.Card

/-!
# Slots for threads are not given back

A process has a row of `NTHREAD` slots.  `kthread_create` takes a slot that is `UNUSED`;
`kthread_exit` leaves it as a `ZOMBIE`, and `kthread_join` writes `-1` into the identifier of
the zombie and leaves its state alone.  Nobody but `allocproc` makes a slot `UNUSED` again, so
each slot serves once in the life of a process.

The run is made to count the threads that a process has created since `allocproc` took its
entry (`stepCounted`).
-/

namespace Xv6.Proc

open Function Transition Kernel Finset

variable {ncpu : ℕ} {S S' : Kernel ncpu} {G : Slot → Ctx} {c : Fin ncpu} {s : Slot}
  {ch : Choice} {e : KOp} {k : e.Ans → KProg Unit} {r : e.Ans}

namespace Kernel

/-- The slots of the process that `kthread_create` can take. -/
def freeSlots (S : Kernel ncpu) (p : PId) : Finset TId :=
  univ.filter fun t => (S.thread (p, t)).state = .unused

/-- The slots of the process that have living threads. -/
def livingSlots (S : Kernel ncpu) (p : PId) : Finset TId :=
  univ.filter fun t => (S.thread (p, t)).state.live = true

/-- Every thread of the process that has exited has been joined. -/
def AllJoined (S : Kernel ncpu) (p : PId) : Prop :=
  ∀ t, (S.thread (p, t)).state = .zombie → (S.thread (p, t)).tid = -1

/-- If fewer than `NTHREAD` threads of the process are alive and those that have exited have
been joined, `kthread_create` succeeds. -/
def CreatesIfRoom (S : Kernel ncpu) (p : PId) : Prop :=
  (S.livingSlots p).card < nthread → S.AllJoined p → (S.threadAlloc p).1 ≠ none

/-- If the threads of the process that have exited have been joined, every slot without a
living thread is available. -/
def SlotsReturn (S : Kernel ncpu) (p : PId) : Prop :=
  S.AllJoined p → ∀ t, (S.thread (p, t)).state.live = false → (S.thread (p, t)).state = .unused

/-- How many threads each process has created, after thread `s` has performed an operation. -/
def countOp (S : Kernel ncpu) (s : Slot) (n : PId → ℕ) : KOp → PId → ℕ
  | .threadAlloc =>
    if (S.threadAlloc s.1).1.isSome then update n s.1 (n s.1 + 1) else n
  | .procAlloc =>
    match S.procAlloc.1 with
    | some q => update n q 0
    | none => n
  | _ => n

/-- How many threads each process has created, after an action. -/
def created (S : Kernel ncpu) (n : PId → ℕ) : Act ncpu → PId → ℕ
  | .run c _ =>
    match S.nextOp c with
    | some (s, e) => S.countOp s n e
    | none => n
  | _ => n

end Kernel

/-- One step of the kernel, and of the count. -/
def stepCounted {ncpu : ℕ} : StepFn (Kernel ncpu × (PId → ℕ)) (Act ncpu) Unit :=
  noted step Kernel.created

/-- At the start no thread has been created. -/
def Uncounted (x : Kernel ncpu × (PId → ℕ)) : Prop := Booted x.1 ∧ x.2 = fun _ => 0

/-- **The count and the row.** -/
structure Counted (S : Kernel ncpu) (G : Slot → Ctx) (n : PId → ℕ) : Prop where
  /-- In a process that is ready one slot is that of its first thread; every other one is
  unused or has been taken by `kthread_create`. -/
  ready : ∀ {p}, (S.proc p).isReady = true → (S.freeSlots p).card + n p + 1 = nthread
  fresh : ∀ {s q st}, (S.thread s).state.active = true → (G s).np = some (q, st) → n q = 0
  blank : ∀ {s q st}, (S.thread s).state.active = true → (G s).np = some (q, st) →
    st ≠ .found → st ≠ .stack → ∀ t, (S.thread (q, t)).state = .unused

/-! ## Slots -/

/-- No slot of the process has been taken or given back. -/
def SameSlots (S S' : Kernel ncpu) (p : PId) : Prop :=
  ∀ t, (S'.thread (p, t)).state = .unused ↔ (S.thread (p, t)).state = .unused

variable {p : PId}

theorem SameSlots.freeSlots (h : SameSlots S S' p) : S'.freeSlots p = S.freeSlots p :=
  filter_congr fun t _ => h t

theorem SameSlots.of_eq (h : ∀ t, (S'.thread (p, t)).state = (S.thread (p, t)).state) :
    SameSlots S S' p :=
  fun t => by rw [h]

theorem SameSlots.of_wake (h : ∀ t, (S'.thread (p, t)).state = (S.thread (p, t)).state ∨
    (S.thread (p, t)).state = .sleeping ∧ (S'.thread (p, t)).state = .runnable) :
    SameSlots S S' p := by
  intro t
  obtain h | ⟨h, h'⟩ := h t
  · rw [h]
  · simp [h, h']

theorem threadAlloc_ne_none : (S.threadAlloc p).1 ≠ none ↔ (S.freeSlots p).Nonempty := by
  constructor
  · intro h
    obtain ⟨t, ht⟩ := Option.ne_none_iff_exists'.mp h
    exact ⟨t, mem_filter.mpr ⟨mem_univ t, (threadAlloc_some ht).1⟩⟩
  · rintro ⟨t, ht⟩ hnone
    have hun := (mem_filter.mp ht).2
    unfold threadAlloc at hnone
    split at hnone
    · rename_i hf
      have := List.find?_eq_none.mp hf t (List.mem_finRange t)
      simp [hun] at this
    · cases hnone

theorem freeSlots_threadAlloc {t : TId} (h : (S.threadAlloc p).1 = some t) :
    t ∈ S.freeSlots p ∧ (S.threadAlloc p).2.freeSlots p = (S.freeSlots p).erase t := by
  obtain ⟨hun, hthread, -, -⟩ := threadAlloc_some h
  refine ⟨mem_filter.mpr ⟨mem_univ t, hun⟩, ?_⟩
  ext u
  simp only [freeSlots, mem_filter, mem_univ, true_and, mem_erase, hthread]
  by_cases hut : u = t
  · simp [hut]
  · rw [update_of_ne fun he => hut (congrArg Prod.snd he)]
    simp [hut]

theorem sameSlots_threadAlloc {p q : PId} (hq : q ≠ p) :
    SameSlots S (S.threadAlloc p).2 q := by
  cases ht : (S.threadAlloc p).1 with
  | none =>
    rw [threadAlloc_none ht]
    exact .of_eq fun _ => rfl
  | some t =>
    refine .of_eq fun u => ?_
    rw [(threadAlloc_some ht).2.1, update_of_ne fun he => hq (congrArg Prod.fst he)]

theorem freeSlots_forkDone (h : ∀ t, (S.thread (p, t)).state = .unused) {f : Entry → Entry} :
    ((S.setProc p f).setThread (p, 0) fun t => { t with state := .runnable }).freeSlots p =
      univ.erase 0 := by
  ext t
  by_cases ht : t = 0
  · simp [freeSlots, ht]
  · simp [freeSlots, ht, h]

/-- The operations that make slots unused, or take them. -/
@[simp] def KOp.movesSlots : KOp → Bool
  | .threadAlloc | .procInit _ | .forkThread _ | .forkDone _ => true
  | _ => false

theorem Answered.sameSlots (ha : Answered S S' G c s ch e k r) (he : e.movesSlots = false) (p : PId) :
    SameSlots S S' p := by
  have hperf := ha.perf
  have hpre := ha.pre
  by_cases hq : e.quiet = true
  · exact .of_wake fun t => ((perform_frame hperf).quiet hq).thread (p, t)
  cases e with
  | procAlloc =>
    cases hperf
    unfold procAlloc
    split <;> exact .of_eq fun _ => rfl
  | stackAlloc =>
    obtain ⟨-, rfl⟩ | ⟨-, page, rfl, -⟩ := allocOr_done hperf <;> exact .of_eq fun _ => rfl
  | forkFail =>
    obtain ⟨page, rfl, -⟩ := forkFail_done hperf
    exact .of_eq fun _ => rfl
  | threadInit t size =>
    cases hperf
    refine .of_eq fun u => ?_
    by_cases hu : (p, u) = (s.1, t) <;> simp [threadInit, hu]
  | threadReady t =>
    cases hperf
    intro u
    by_cases hu : (p, u) = (s.1, t)
    · have hembryo : (S.thread (s.1, t)).state = .embryo :=
        (ha.owns).thread hpre
      simp [hu, hembryo]
    · rw [setThread_ne _ hu]
  | wait =>
    obtain ⟨q, page, -, -, -, -, -, rfl⟩ | ⟨-, -, -, rfl⟩ := wait_cases hperf <;> exact .of_eq fun _ => rfl
  | threadExit => exact ha.not_last.elim
  | exitDone => exact r.elim
  | threadAlloc | procInit | forkThread | forkDone => cases he
  | _ => exact absurd rfl hq

/-! ## Steps -/

theorem Answered.was_ready (ha : Answered S S' G c s ch e k r) (hp : (S'.proc p).isReady = true) :
    (S.proc p).isReady = true ∨ e = .forkDone p := by
  cases ha.fate p with
  | same hs _ => exact .inl (by rwa [Entry.isReady_congr hs] at hp)
  | launched he => exact .inr he
  | taken _ _ hs' | adopted _ _ _ hs' | freed _ _ hs' => simp [Entry.isReady, hs'] at hp

theorem np_of_next {g : Ctx} {q : PId} {st : Stage} (hpre : e.pre g)
    (h : (e.next r g).np = some (q, st)) :
    e = .procAlloc ∧ st = .found ∨
      ∃ st', g.np = some (q, st') ∧
        (st = .stack ∨ e = .procInit q ∨ (st' = .found ∨ st' = .stack → st' = st)) := by
  by_cases hq : e.quiet = true
  · by_cases hcopy : ∃ q', e = .copyuvm q'
    · obtain ⟨q', rfl⟩ := hcopy
      obtain ⟨rfl, -⟩ : q' = q ∧ _ := by simpa using h
      exact .inr ⟨_, hpre, .inr (.inr (by simp))⟩
    · have hsame := (next_owned hq (fun q hq => hcopy ⟨q, hq⟩) r g).1
      exact .inr ⟨st, hsame.symm.trans h, .inr (.inr fun _ => rfl)⟩
  cases e with
  | procAlloc =>
    have hg : r = some q ∧ Stage.found = st := by simpa using h
    exact .inl ⟨rfl, hg.2.symm⟩
  | stackAlloc q' =>
    cases r with
    | true =>
      cases h
      exact .inr ⟨_, hpre, .inl rfl⟩
    | false => cases h
  | procInit q' =>
    cases h
    exact .inr ⟨_, hpre, .inr (.inl rfl)⟩
  | forkThread q' =>
    cases h
    exact .inr ⟨_, hpre, .inr (.inr (by simp))⟩
  | forkFail | forkDone => cases h
  | threadAlloc | threadInit | threadReady | threadExit | wait =>
    exact .inr ⟨st, h, .inr (.inr fun _ => rfl)⟩
  | exitDone => exact r.elim
  | _ => exact absurd rfl hq

theorem Answered.unused_slot (ha : Answered S S' G c s ch e k r) {q : PId} (hq : q ≠ s.1)
    (he : e ≠ .forkDone q) {t : TId} (ht : (S.thread (q, t)).state = .unused) :
    (S'.thread (q, t)).state = .unused := by
  have hperf := ha.perf
  by_cases hmoves : e.movesSlots = true
  · cases e with
    | threadAlloc =>
      cases (withRow_done hperf).2
      exact (sameSlots_threadAlloc hq t).mpr ht
    | procInit p =>
      cases hperf
      simp only [procInit]
      split_ifs <;> first | rfl | exact ht
    | forkThread p =>
      cases hperf
      simp only [forkThread]
      split_ifs <;> first | rfl | exact ht
    | forkDone p =>
      cases hperf
      rw [setThread_ne _ fun heq => he (congrArg KOp.forkDone (congrArg Prod.fst heq).symm)]
      exact ht
    | _ => cases hmoves
  · exact (ha.sameSlots (by simpa using hmoves) q t).mpr ht

theorem procAlloc_unused {q : PId} (h : S.procAlloc.1 = some q) : (S.proc q).state = .unused := by
  unfold procAlloc at h
  split at h
  · cases h
  · rename_i hf
    cases h
    simpa using first?_eq_some hf

namespace Counted

variable {n : PId → ℕ}

theorem countOp_eq (hown : e = .threadAlloc → p ≠ s.1)
    (hnew : e = .procAlloc → (S.proc p).state ≠ .unused) : S.countOp s n e p = n p := by
  cases e with
  | threadAlloc =>
    simp only [countOp]
    split
    · exact update_of_ne (hown rfl) _ _
    · rfl
  | procAlloc =>
    cases hq : S.procAlloc.1 with
    | none => simp only [countOp, hq]
    | some q =>
      simp only [countOp, hq]
      refine update_of_ne ?_ _ _
      rintro rfl
      exact hnew rfl (procAlloc_unused hq)
  | _ => rfl

theorem created_run (hc : (S.cpu c).thread = some s) (hcode : S.code s = .vis e k) :
    S.created n (.run c ch) = S.countOp s n e := by
  simp [created, nextOp_eq hc hcode]

theorem countOp_of_sleep {chan : Chan} (hperf : S.perform c s ch e = some (.sleep chan)) :
    S.countOp s n e = n := by
  cases e with
  | threadAlloc =>
    simp only [perform, withRow] at hperf
    split at hperf <;> cases hperf
  | procAlloc => cases hperf
  | _ => rfl

theorem of_same {G' : Slot → Ctx} (h : Counted S G n)
    (hready : ∀ {p}, (S'.proc p).isReady = true → (S.proc p).isReady = true ∧ SameSlots S S' p)
    (hactive : ∀ {u q st}, (S'.thread u).state.active = true → (G' u).np = some (q, st) →
      (S.thread u).state.active = true ∧ (G u).np = some (q, st) ∧ SameSlots S S' q) :
    Counted S' G' n where
  ready hp := by
    obtain ⟨hp, hsame⟩ := hready hp
    rw [hsame.freeSlots]
    exact h.ready hp
  fresh hu hg := by
    obtain ⟨hu, hg, -⟩ := hactive hu hg
    exact h.fresh hu hg
  blank hu hg hf hs t := by
    obtain ⟨hu, hg, hsame⟩ := hactive hu hg
    exact (hsame t).mpr (h.blank hu hg hf hs t)

section Done

theorem of_done (h : Counted S G n) (ha : Answered S S' G c s ch e k r) :
    Counted S' (learn G s e r) (S.countOp s n e) := by
  have hperf := ha.perf
  have hpre := ha.pre
  have hsact := ha.active
  have hown := ha.inv.owns hsact
  have hsready := ha.inv.ready (ha.inv.running_live ha.cpu)
  have hembryo : ∀ {u q st}, (S.thread u).state.active = true → (G u).np = some (q, st) →
      (S.proc q).state = .embryo := fun hu hg => (ha.inv.owns hu).embryo hg
  have hne : ∀ {q}, (S.proc q).state = .embryo → q ≠ s.1 := by
    rintro q hq rfl
    simp [Entry.isReady, hq] at hsready
  -- slots of processes that `s` is not setting up
  have hslots : ∀ {p}, (e = .threadAlloc → p ≠ s.1) → (∀ st, (G s).np ≠ some (p, st)) →
      SameSlots S S' p := by
    intro p hp hg
    by_cases he : e.movesSlots = true
    · cases e with
      | threadAlloc =>
        cases (withRow_done hperf).2
        exact sameSlots_threadAlloc (hp rfl)
      | procInit q =>
        cases hperf
        have hpq : p ≠ q := fun hpq => hg _ (hpq ▸ hpre)
        exact .of_eq fun t => by simp [procInit, hpq]
      | forkThread q =>
        cases hperf
        have hpq : p ≠ q := fun hpq => hg _ (hpq ▸ hpre)
        exact .of_eq fun t => by simp [forkThread, hpq]
      | forkDone q =>
        cases hperf
        have hpq : p ≠ q := fun hpq => hg _ (hpq ▸ hpre)
        refine .of_eq fun t => ?_
        rw [setThread_ne _ fun heq => hpq (congrArg Prod.fst heq)]
        rfl
      | _ => cases he
    · exact ha.sameSlots (by simpa using he) p
  -- what the threads are setting up
  have hnp : ∀ {u q st}, (S'.thread u).state.active = true → (learn G s e r u).np = some (q, st) →
      u ≠ s ∧ (S.thread u).state.active = true ∧ (G u).np = some (q, st) ∨
        u = s ∧ (e.next r (G s)).np = some (q, st) := by
    intro u q st hu hg
    by_cases hst : e.starts s = some u
    · rw [learn_starts G r hst] at hg
      cases hg
    by_cases hus : u = s
    · subst hus
      rw [learn_self G r hst] at hg
      exact .inr ⟨rfl, hg⟩
    · rw [learn_ne G r hus hst] at hg
      exact .inl ⟨hus, (ha.thread hst).active_iff.mp hu, hg⟩
  refine ⟨fun {p} hp => ?_, fun {u q st} hu hg => ?_, fun {u q st} hu hg hf hs t => ?_⟩
  · obtain hp | rfl := ha.was_ready hp
    · have hfar : ∀ st, (G s).np ≠ some (p, st) := by
        intro st hg
        simp [Entry.isReady, hown.embryo hg] at hp
      have hused : (S.proc p).state ≠ .unused := fun hun => by simp [Entry.isReady, hun] at hp
      by_cases hps : e = .threadAlloc ∧ p = s.1
      · obtain ⟨rfl, rfl⟩ := hps
        cases (withRow_done hperf).2
        have hcard := h.ready hsready
        cases ht : (S.threadAlloc s.1).1 with
        | none =>
          rw [threadAlloc_none ht]
          simpa [countOp, ht] using hcard
        | some t =>
          obtain ⟨hmem, hfree⟩ := freeSlots_threadAlloc ht
          have hpos := card_pos.mpr ⟨t, hmem⟩
          rw [hfree, card_erase_of_mem hmem]
          simp only [countOp, ht, Option.isSome_some, if_true, update_self]
          omega
      · have hps' : e = .threadAlloc → p ≠ s.1 := fun he hp => hps ⟨he, hp⟩
        rw [countOp_eq hps' fun _ => hused, (hslots hps' hfar).freeSlots]
        exact h.ready hp
    · -- the row was unused, and the first slot has been taken
      have hblank := h.blank hsact hpre (by simp) (by simp)
      have hfresh := h.fresh hsact hpre
      cases hperf
      rw [countOp_eq (by simp) (by simp), hfresh]
      rw [freeSlots_forkDone hblank, card_erase_of_mem (mem_univ _)]
      rfl
  · obtain ⟨hus, hu, hg⟩ | ⟨rfl, hg⟩ := hnp hu hg
    · have hemb := hembryo hu hg
      rw [countOp_eq (fun _ => hne hemb) (by simp [hemb])]
      exact h.fresh hu hg
    · obtain ⟨rfl, -⟩ | ⟨st', hg', -⟩ := np_of_next hpre hg
      · cases hperf
        have hq : S.procAlloc.1 = some q ∧ Stage.found = st := by simpa using hg
        simp only [countOp, hq.1, update_self]
      · have hemb := hown.embryo hg'
        rw [countOp_eq (fun _ => hne hemb) (by simp [hemb])]
        exact h.fresh hsact hg'
  · obtain ⟨hus, hu, hg'⟩ | ⟨rfl, hg⟩ := hnp hu hg
    · -- somebody else is setting the process up
      refine ha.unused_slot (hne (hembryo hu hg')) ?_
        (h.blank hu hg' hf hs t)
      rintro rfl
      exact hus (ha.inv.npInj hu hsact hg' hpre)
    · obtain ⟨-, rfl⟩ | ⟨st', hg', rfl | rfl | hst⟩ := np_of_next hpre hg
      · exact absurd rfl hf
      · exact absurd rfl hs
      · cases hperf
        simp only [procInit, if_true]
        split <;> rfl
      · refine ha.unused_slot (hne (hown.embryo hg')) ?_
          (h.blank hsact hg' (fun hf' => hf (hst (.inl hf') ▸ hf')) (fun hs' => hs (hst (.inr hs') ▸ hs')) t)
        rintro rfl
        cases hg

end Done

theorem of_gone (h : Counted S G n) (hi : Inv S G) (hc : (S.cpu c).thread = some s)
    (hperf : S.perform c s ch e = some (.gone S')) : Counted S' G n := by
  have hsready := hi.ready (hi.running_live hc)
  -- a process that is ready afterwards, or is being set up, has not been left by `exit`
  have hstay : ∀ {p}, (e = .exitDone → p ≠ s.1) → SameSlots S S' p := by
    intro p hp t
    by_cases hps : (p, t) = s
    · rw [hps, ended_of_gone hperf (.inl rfl), hi.running hc]
      simp
    · obtain hsame | ⟨hold, hnew⟩ := wake_of_gone hperf hps ((gone_cases hperf).imp_right hp)
      · rw [hsame]
      · simp [hold, hnew]
  refine h.of_same (fun {p} hp => ?_) fun {u q st} hu hg => ?_
  · obtain rfl | rfl := gone_cases hperf
    · obtain rfl := threadExit_gone hperf
      exact ⟨hp, hstay (by simp)⟩
    · have hex := (exitDone_gone hperf).1
      have hps : p ≠ s.1 := by
        rintro rfl
        simp [Entry.isReady, hex.state] at hp
      refine ⟨?_, hstay fun _ => hps⟩
      by_cases hpar : (S.proc p).parent = some s.1
      · obtain ⟨st, heq, rfl | ⟨rfl, -⟩⟩ := hex.child hps hpar
        · rwa [heq] at hp
        · simp [heq, Entry.isReady] at hp
      · rwa [hex.other hps hpar] at hp
  · have hu' := active_of_gone hperf hu
    refine ⟨hu', hg, hstay fun _ => ?_⟩
    rintro rfl
    simp [Entry.isReady, (hi.owns hu').embryo hg] at hsready

theorem of_switch (h : Counted S G n) (hproc : S'.proc = S.proc)
    (hact : (S.thread s).state.active = true) (hact' : (S'.thread s).state.active = true)
    (hother : ∀ u, u ≠ s → (S'.thread u).state = (S.thread u).state) : Counted S' G n := by
  have hslots : ∀ p, SameSlots S S' p := by
    intro p t
    by_cases hps : (p, t) = s
    · rw [hps]
      constructor <;> intro hun <;> simp [hun] at hact hact'
    · rw [hother _ hps]
  refine h.of_same (fun {p} hp => ⟨by rwa [hproc] at hp, hslots p⟩) fun {u q st} hu hg => ?_
  refine ⟨?_, hg, hslots q⟩
  by_cases hus : u = s
  · rwa [hus]
  · rwa [hother u hus] at hu

theorem step {G' : Slot → Ctx} {a : Act ncpu} (h : Counted S G n) (hi : Inv S G)
    (hok : Orderly S a) (hm : Moves S G a S' G') : Counted S' G' (S.created n a) := by
  cases hm with
  | schedule hc hrun =>
    rename_i c s
    have hs := runnable_of_canRun hrun
    exact h.of_switch (s := s) rfl (by simp [hs]) (by simp [dispatch]) fun u hu => by
      simp [dispatch, hu]
  | done hc hcode hperf =>
    rw [created_run hc hcode]
    have hdone := h.of_done ⟨hi, hc, hcode, hperf, hok.hasOthers hc hcode⟩
    exact ⟨hdone.ready, hdone.fresh, hdone.blank⟩
  | sleep hc hcode hperf =>
    rename_i c s ch e k chan
    rw [created_run hc hcode, countOp_of_sleep hperf]
    exact h.of_switch (s := s) rfl (hi.running_active hc) (by simp [sleepOn, Kernel.leave])
      fun u hu => by simp [sleepOn, Kernel.leave, hu]
  | gone hc hcode hperf =>
    rw [created_run hc hcode]
    obtain rfl | rfl := gone_cases hperf <;> exact h.of_gone hi hc hperf
  | enter hc hcode =>
    rename_i c s t
    refine h.of_same (fun hp => ⟨hp, .of_eq fun _ => rfl⟩) fun {u q st} hu hg => ?_
    by_cases hus : u = s
    · rw [hus, update_self] at hg
      cases hg
    · rw [update_of_ne hus] at hg
      exact ⟨hu, hg, .of_eq fun _ => rfl⟩
  | tick hc hcode hs =>
    rename_i c s depth e k
    exact h.of_switch (s := s) rfl (by simp [hs]) (by simp [yield, Kernel.leave]) fun u hu => by
      simp [yield, Kernel.leave, hu]
  | intr =>
    have hq := quiet_wakeup1 S ‹Chan›
    have hslots : ∀ p, SameSlots S _ p := fun p => .of_wake fun t => hq.thread (p, t)
    exact h.of_same (fun {p} hp => ⟨hp, hslots p⟩) fun {u q st} hu hg =>
      ⟨(hq.active_eq u).symm.trans hu, hg, hslots q⟩

theorem of_booted (h : Booted S) : Counted S (fun _ => .start) fun _ => 0 := by
  obtain ⟨k, d, avail, -, -, -, rfl⟩ := h
  refine ⟨fun {p} hp => ?_, fun _ hg => ?_, fun _ hg => ?_⟩
  · by_cases hp0 : p = 0
    · have hfree : (boot ncpu k d avail).freeSlots p = univ.erase 0 := by
        ext t
        by_cases ht : t = 0
        · simp [freeSlots, boot, hp0, ht]
        · simp [freeSlots, boot, hp0, ht, KThread.empty]
      rw [hfree, card_erase_of_mem (mem_univ _)]
      rfl
    · simp [boot, hp0, Entry.empty, Entry.isReady] at hp
  · cases hg
  · cases hg

end Counted

theorem counted_of_reach {x : Kernel ncpu × (PId → ℕ)}
    (h : Reach stepCounted (fun x a => Orderly x.1 a) Uncounted x) :
    ∃ G, Inv x.1 G ∧ Counted x.1 G x.2 := by
  refine Reach.invariant (I := fun x => ∃ G, Inv x.1 G ∧ Counted x.1 G x.2) ?_ ?_ h
  · rintro ⟨S, n⟩ ⟨hS, rfl⟩
    exact ⟨_, .of_booted hS, .of_booted hS⟩
  · rintro ⟨S, n⟩ a ⟨S', n'⟩ ⟨G, hi, hn⟩ hok hs
    obtain ⟨hs, rfl⟩ := noted_ok hs
    obtain ⟨G', hm⟩ := Moves.of_step G hs
    exact ⟨G', hi.step hok hm, hn.step hi hok hm⟩

/-! ## The results -/

theorem slotsReturn_iff (S : Kernel ncpu) (p : PId) :
    (∀ t, (S.thread (p, t)).state.live = false → (S.thread (p, t)).state = .unused) ↔
      (S.livingSlots p).card + (S.freeSlots p).card = nthread := by
  have hdisj : Disjoint (S.livingSlots p) (S.freeSlots p) := by
    refine disjoint_filter.mpr fun t _ hlive hun => ?_
    simp [hun] at hlive
  rw [← card_union_of_disjoint hdisj]
  constructor
  · intro h
    have huniv : S.livingSlots p ∪ S.freeSlots p = univ := by
      ext t
      simp only [livingSlots, freeSlots, mem_union, mem_filter, mem_univ,
        true_and, iff_true]
      exact (Bool.eq_false_or_eq_true _).imp_right (h t)
    rw [huniv]
    exact card_fin nthread
  · intro h t hlive
    have huniv := eq_univ_of_card _ (h.trans (Fintype.card_fin nthread).symm)
    have ht := huniv ▸ mem_univ t
    obtain ht | ht := mem_union.mp ht
    · exact absurd ((mem_filter.mp ht).2.symm.trans hlive) (by simp)
    · exact (mem_filter.mp ht).2

/-- **Slots are not recycled.**  In every state that orderly steps reach, and for every process
that is ready: with room in the row and every exited thread joined, `kthread_create` succeeds
if and only if the process has created fewer than `NTHREAD - 1` threads so far; and the slots
without living threads are available if and only if all threads that it has created live. -/
theorem slots_recycled_iff {x : Kernel ncpu × (PId → ℕ)}
    (h : Reach stepCounted (fun x a => Orderly x.1 a) Uncounted x) {p : PId}
    (hp : (x.1.proc p).isReady = true) :
    (x.1.CreatesIfRoom p ↔ ((x.1.livingSlots p).card < nthread → x.1.AllJoined p →
      x.2 p < nthread - 1)) ∧
    (x.1.SlotsReturn p ↔ (x.1.AllJoined p → (x.1.livingSlots p).card = x.2 p + 1)) := by
  obtain ⟨G, -, hn⟩ := counted_of_reach h
  have hcard := hn.ready hp
  constructor
  · refine imp_congr_right fun _ => imp_congr_right fun _ => ?_
    rw [threadAlloc_ne_none, ← card_pos]
    omega
  · refine imp_congr_right fun _ => ?_
    rw [slotsReturn_iff]
    omega

/-- The start of the runs below. -/
def uncounted : Kernel 2 × (PId → ℕ) := (booted, fun _ => 0)

set_option maxRecDepth 10000 in
/-- The first process has created one thread, and can create another. -/
theorem slots_recycled_one :
    ∃ x : Kernel 2 × (PId → ℕ), Reach stepCounted (fun x a => Orderly x.1 a) Uncounted x ∧
      (x.1.proc 0).isReady = true ∧ x.2 0 = 1 ∧ x.1.CreatesIfRoom 0 := by
  have hm : Meets stepCounted (fun x a => Orderly x.1 a) uncounted threadMade := by decide +kernel
  have he : endsIn stepCounted uncounted threadMade (fun x =>
      (x.1.proc 0).isReady && x.2 0 == 1) = true := by decide +kernel
  have hstart : Uncounted uncounted := ⟨booted_booted, rfl⟩
  obtain ⟨x, hx, htest⟩ := Reach.of_endsIn hstart he hm
  simp only [Bool.and_eq_true, beq_iff_eq] at htest
  refine ⟨x, hx, htest.1, htest.2, (slots_recycled_iff hx htest.1).1.mpr fun _ _ => ?_⟩
  rw [htest.2]
  decide

/-- The first process creates a thread, which gets slot `t` and exits, and joins it. -/
def createAndJoin (t : TId) : List (Act 2) :=
  calls cpu0 (.kthreadCreate 4096) 6 ++ [.schedule cpu1 (0, t), go cpu1] ++
    calls cpu1 .kthreadExit 3 ++ calls cpu0 (.kthreadJoin 0) 4

/-- It does so once for each slot but the first. -/
def rowUsedUp : List (Act 2) :=
  initRuns ++ ((List.finRange nthread).drop 1).flatMap createAndJoin

/-- Test: every slot but the first is that of a zombie that has been joined. -/
def Kernel.usedUp (S : Kernel ncpu) (p : PId) : Bool :=
  (List.finRange nthread).all fun t =>
    if t = 0 then (S.thread (p, t)).state.live
    else (S.thread (p, t)).state == .zombie && (S.thread (p, t)).tid == -1

theorem usedUp_iff : S.usedUp p = true ↔ (S.thread (p, 0)).state.live = true ∧
    ∀ t, t ≠ 0 → (S.thread (p, t)).state = .zombie ∧ (S.thread (p, t)).tid = -1 := by
  simp only [usedUp, List.all_eq_true, List.mem_finRange, true_implies]
  constructor
  · refine fun h => ⟨by simpa using h 0, fun t ht => ?_⟩
    simpa [ht] using h t
  · rintro ⟨h0, h⟩ t
    by_cases ht : t = 0
    · simpa [ht] using h0
    · simpa [ht] using h t ht

theorem not_createsIfRoom_of_usedUp (h : S.usedUp p = true) :
    ¬S.CreatesIfRoom p ∧ ¬S.SlotsReturn p := by
  obtain ⟨h0, hz⟩ := usedUp_iff.mp h
  have hjoined : S.AllJoined p := by
    intro t ht
    have ht0 : t ≠ 0 := by
      rintro rfl
      simp [ht] at h0
    exact (hz t ht0).2
  have hfree : S.freeSlots p = ∅ := by
    refine filter_eq_empty_iff.mpr fun {t} _ hun => ?_
    by_cases ht : t = 0
    · simp [ht ▸ hun] at h0
    · simp [(hz t ht).1] at hun
  have hliving : S.livingSlots p ⊆ {0} := by
    intro t ht
    by_contra hne
    have hlive := (mem_filter.mp ht).2
    simp [(hz t (by simpa using hne)).1] at hlive
  refine ⟨fun hc => ?_, fun hs => ?_⟩
  · have hcard : (S.livingSlots p).card < nthread :=
      (card_le_card hliving).trans_lt (by decide)
    have hne := threadAlloc_ne_none.mp (hc hcard hjoined)
    rw [hfree] at hne
    exact not_nonempty_empty hne
  · have h1 := hz 1 (by decide)
    have := hs hjoined 1 (by simp [h1.1])
    rw [h1.1] at this
    cases this

set_option maxRecDepth 20000 in
/-- **The row is used up.**  The first process creates a thread, which exits and is joined, and
so on, 15 times: it has one thread, every other one has been joined, and `kthread_create`
fails. -/
theorem slots_used_up :
    ∃ S : Kernel 2, Reach step Orderly Booted S ∧ (S.proc 0).isReady = true ∧
      ¬S.CreatesIfRoom 0 ∧ ¬S.SlotsReturn 0 := by
  have hm : Meets step Orderly booted rowUsedUp := by decide +kernel
  have he : endsIn step booted rowUsedUp (fun S => (S.proc 0).isReady && S.usedUp 0) = true := by
    decide +kernel
  obtain ⟨S, hS, htest⟩ := Reach.of_endsIn booted_booted he hm
  simp only [Bool.and_eq_true] at htest
  exact ⟨S, hS, htest.1, not_createsIfRoom_of_usedUp htest.2⟩

end Xv6.Proc
