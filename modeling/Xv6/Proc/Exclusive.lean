import Xv6.Proc.LifecycleSteps

/-!
# Nobody shares a processor, an entry or a slot

`fork` and `kthread_create` let go of `ptable.lock` between the steps in which they set up what
they have found, and may be preempted there.  That the entry or the slot is theirs alone all the
time is part of the invariant of the tables; here it is read off the code that threads are at.
-/

namespace Xv6.Proc

open Transition Kernel

variable {ncpu : ℕ} {S : Kernel ncpu}

/-- The entry that an operation of `fork` works on. -/
def KOp.entry : KOp → Option PId
  | .stackAlloc p | .procInit p | .copyuvm p | .forkFail p | .forkThread p | .forkFile p _
  | .forkCwd p | .forkDone p => some p
  | _ => none

/-- The slot that an operation of `kthread_create` works on. -/
def KOp.slot : KOp → Option TId
  | .threadInit t _ | .threadReady t => some t
  | _ => none

namespace Kernel

/-- What a thread that can run does next. -/
def next (S : Kernel ncpu) (s : Slot) : Option KOp :=
  match S.code s with
  | .ret _ => none
  | .vis e _ => if (S.thread s).state.active then some e else none

/-- Processors, entries and slots are with one thread each. -/
structure Exclusive (S : Kernel ncpu) : Prop where
  cpu : ∀ c s, (S.cpu c).thread = some s → (S.thread s).state = .running ∧
    (S.proc s.1).isReady = true ∧ ∀ d, (S.cpu d).thread = some s → d = c
  entry : ∀ s u q, (S.next s).bind KOp.entry = some q → (S.next u).bind KOp.entry = some q → s = u
  /-- And nothing of it can run yet. -/
  embryo : ∀ s q, (S.next s).bind KOp.entry = some q →
    (S.proc q).state = .embryo ∧ ∀ t, (S.thread (q, t)).state.live = false
  slot : ∀ p t u v, (S.next (p, u)).bind KOp.slot = some t → (S.next (p, v)).bind KOp.slot = some t →
    u = v ∧ (S.thread (p, t)).state = .embryo

end Kernel

theorem np_of_entry {e : KOp} {g : Ctx} {q : PId} (hpre : e.pre g) (he : e.entry = some q) :
    ∃ st, g.np = some (q, st) := by
  cases e <;> cases he <;> exact ⟨_, hpre⟩

theorem nt_of_slot {e : KOp} {g : Ctx} {t : TId} (hpre : e.pre g) (he : e.slot = some t) :
    ∃ b, g.nt = some (t, b) := by
  cases e <;> cases he <;> exact ⟨_, hpre⟩

/-- What a thread does next it is entitled to. -/
theorem Inv.pre_of_next {G : Slot → Ctx} (h : Inv S G) {s : Slot} {e : KOp} (he : S.next s = some e) :
    (S.thread s).state.active = true ∧ e.pre (G s) := by
  rw [Kernel.next] at he
  split at he
  · cases he
  · next e' k hcode =>
    split_ifs at he with hs
    cases he
    have hsafe := h.safe hs
    rw [hcode] at hsafe
    exact ⟨hs, hsafe.1⟩

/-- **Nobody shares.** In every state that orderly steps reach, whatever threads and processes do:
a thread is on one processor, two calls of `fork` never work on the same entry of the process
table, nor two calls of `kthread_create` on the same slot, and what they work on cannot run. -/
theorem exclusive_of_reach (h : Reach step Orderly Booted S) : S.Exclusive := by
  obtain ⟨G, hG⟩ := inv_of_reach h
  have hentry : ∀ {s q}, (S.next s).bind KOp.entry = some q →
      (S.thread s).state.active = true ∧ ∃ st, (G s).np = some (q, st) := by
    intro s q hq
    obtain ⟨e, he, hq⟩ := Option.bind_eq_some_iff.mp hq
    obtain ⟨hs, hpre⟩ := hG.pre_of_next he
    exact ⟨hs, np_of_entry hpre hq⟩
  have hslot : ∀ {s t}, (S.next s).bind KOp.slot = some t →
      (S.thread s).state.active = true ∧ ∃ b, (G s).nt = some (t, b) := by
    intro s t ht
    obtain ⟨e, he, ht⟩ := Option.bind_eq_some_iff.mp ht
    obtain ⟨hs, hpre⟩ := hG.pre_of_next he
    exact ⟨hs, nt_of_slot hpre ht⟩
  refine ⟨fun c s hc => ?_, fun s u q hs hu => ?_, fun s q hs => ?_, fun p t u v hu hv => ?_⟩
  · have hrun := hG.running hc
    exact ⟨hrun, hG.ready (by rw [hrun]; rfl), fun d hd => hG.alone hd hc⟩
  · obtain ⟨hs, st, hnp⟩ := hentry hs
    obtain ⟨hu, st', hnp'⟩ := hentry hu
    exact hG.npInj hs hu hnp hnp'
  · obtain ⟨hs, st, hnp⟩ := hentry hs
    have hq := (hG.owns hs).embryo hnp
    refine ⟨hq, fun t => ?_⟩
    by_contra hlive
    have hready := hG.ready (s := (q, t)) (by simpa using hlive)
    simp [Entry.isReady, hq] at hready
  · obtain ⟨hu, b, hnt⟩ := hslot hu
    obtain ⟨hv, b', hnt'⟩ := hslot hv
    exact ⟨congrArg Prod.snd (hG.ntInj hu hv rfl hnt hnt'), (hG.owns hu).thread hnt⟩

set_option maxRecDepth 10000 in
/-- The first process has found an entry, and is about to get a page for the stack. -/
theorem exclusive_of_reach_initForks :
    ∃ S : Kernel 2, Reach step Orderly Booted S ∧ (S.next (0, 0)).bind KOp.entry = some 1 ∧
      (S.proc 1).state = .embryo := by
  have hm : Meets step Orderly booted (initRuns ++ initForks.take 4) := by decide +kernel
  have he : endsIn step booted (initRuns ++ initForks.take 4)
      (fun S => (S.next (0, 0)).bind KOp.entry == some 1) = true := by decide +kernel
  obtain ⟨S, hS, hs⟩ := Reach.of_endsIn booted_booted he hm
  exact ⟨S, hS, eq_of_beq hs, ((exclusive_of_reach hS).embryo _ _ (eq_of_beq hs)).1⟩

end Xv6.Proc
