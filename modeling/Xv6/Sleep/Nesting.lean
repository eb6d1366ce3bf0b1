import Mathlib.Data.Fintype.Basic
import Xv6.Lib.Transition
import Xv6.Sleep.Spinlock

/-!
# `pushcli` and `popcli` across context switches

`ncli` and `intena` belong to a processor, but what they count is done by the thread that runs on it.
`sched` takes `intena` along in a local variable and leaves `ncli` behind, where the scheduler, and
after it some other thread, takes it for its own.  That works because everybody who is switched away
from has disabled interrupts exactly once: by taking `ptable.lock`, which the other side releases.

A context is a thread or the scheduler of a processor, with the interrupt handlers that run on its
stack.  What it has done is not in the source: how deep it is in calls of `pushcli`, and whether
interrupts were enabled at the outermost one (`was`).  `pushcli` takes two steps, since an interrupt
may come, and the thread move to another processor, after the flags have been read; so the flags are
on the stack, like those in the trap frames.  A new thread comes to `forkret` without a `pushcli` of
its own, but with a lock to release.
-/

namespace Xv6.Sleep

open Transition

variable {T : Type} {ncpu : ℕ}

/-- Who runs on a processor. -/
inductive Who (T : Type) (ncpu : ℕ) where
  | thread (t : T)
  | scheduler (c : Fin ncpu)
  deriving DecidableEq

/-- Flags on a stack. -/
inductive Item where
  /-- `eflags` of a `pushcli` that has not come to `cli` -/
  | flags (intr : Bool)
  /-- a trap frame -/
  | frame (intr : Bool)
  deriving DecidableEq

structure Context where
  depth : ℕ
  stack : List Item
  /-- `intena` of `sched` -/
  saved : Option Bool
  /-- Interrupts were enabled at the outermost `pushcli`. -/
  was : Option Bool

/-- The next step is `cli`. -/
def Context.reading (x : Context) : Bool :=
  match x.stack with
  | .flags _ :: _ => true
  | _ => false

structure Nest (T : Type) (ncpu : ℕ) where
  cli : Fin ncpu → Cli
  running : Fin ncpu → Who T ncpu
  context : Who T ncpu → Context

inductive NestAct (T : Type) (ncpu : ℕ) where
  /-- the two halves of `pushcli` -/
  | readeflags (c : Fin ncpu)
  | cli (c : Fin ncpu)
  | popcli (c : Fin ncpu)
  | interrupt (c : Fin ncpu)
  | syscall (c : Fin ncpu)
  | iret (c : Fin ncpu)
  /-- the `sti` of `scheduler` -/
  | sti (c : Fin ncpu)
  | sched (c : Fin ncpu)
  /-- `scheduler` switches to a thread. -/
  | swtch (c : Fin ncpu) (t : T)

inductive NestPanic where
  | lock (p : LockPanic)
  /-- `"sched locks"` -/
  | schedLocks
  /-- `"sched interruptible"` -/
  | schedInterruptible

section Steps

variable [DecidableEq T]

namespace Nest

def cur (N : Nest T ncpu) (c : Fin ncpu) : Context := N.context (N.running c)

/-- The processor and the context on it change. -/
def setCur (N : Nest T ncpu) (c : Fin ncpu) (k : Cli) (x : Context) : Nest T ncpu :=
  { N with cli := Function.update N.cli c k, context := Function.update N.context (N.running c) x }

/-- And then it is left for another one. -/
def switch (N : Nest T ncpu) (c : Fin ncpu) (k : Cli) (x : Context) (w : Who T ncpu) : Nest T ncpu :=
  { N.setCur c k x with running := Function.update N.running c w }

/-- One step. -/
def step : StepFn (Nest T ncpu) (NestAct T ncpu) NestPanic
  | N, .readeflags c =>
    some (.ok (N.setCur c (N.cli c)
      { N.cur c with stack := .flags (N.cli c).intr :: (N.cur c).stack }))
  | N, .cli c =>
    let k := N.cli c
    let x := N.cur c
    match x.stack with
    | .flags eflags :: stack =>
      some (.ok (N.setCur c
        { ncli := k.ncli + 1, intena := if k.ncli = 0 then eflags else k.intena, intr := false }
        { x with
          depth := x.depth + 1, stack := stack
          was := if x.depth = 0 then some k.intr else x.was }))
    | _ => none
  | N, .popcli c =>
    match (N.cli c).popcli with
    | .error p => some (.error (.lock p))
    | .ok k => some (.ok (N.setCur c k { N.cur c with depth := (N.cur c).depth - 1 }))
  | N, .interrupt c =>
    if (N.cli c).intr then
      some (.ok (N.setCur c { N.cli c with intr := false }
        { N.cur c with stack := .frame true :: (N.cur c).stack }))
    else none
  | N, .syscall c =>
    some (.ok (N.setCur c (N.cli c)
      { N.cur c with stack := .frame (N.cli c).intr :: (N.cur c).stack }))
  | N, .iret c =>
    match (N.cur c).stack with
    | .frame eflags :: stack =>
      some (.ok (N.setCur c { N.cli c with intr := eflags } { N.cur c with stack := stack }))
    | _ => none
  | N, .sti c => some (.ok (N.setCur c { N.cli c with intr := true } (N.cur c)))
  | N, .sched c =>
    if (N.cli c).ncli ≠ 1 then some (.error .schedLocks)
    else if (N.cli c).intr then some (.error .schedInterruptible)
    else
      some (.ok (N.switch c (N.cli c) { N.cur c with saved := some (N.cli c).intena }
        (.scheduler c)))
  | N, .swtch c t =>
    -- a thread that has called `sched` goes on with `cpu->intena = intena`
    some (.ok (N.switch c
      { N.cli c with intena := ((N.context (.thread t)).saved).getD (N.cli c).intena }
      { N.cur c with was := none } (.thread t)))

end Nest

/-- What is asked of a context: it takes back no more than it has done, it returns from a handler at
the depth at which it was interrupted, and it calls `sched` at depth 1. -/
def Nest.WellNested (N : Nest T ncpu) : NestAct T ncpu → Prop
  | .readeflags c => (N.cur c).reading = false
  | .cli _ | .interrupt _ => True
  | .popcli c => 0 < (N.cur c).depth ∧ (N.cur c).reading = false
  | .syscall c => (N.cur c).depth = 0 ∧ (N.cur c).reading = false
  | .iret c => (N.cur c).depth = 0
  | .sti c => N.running c = .scheduler c ∧ (N.cur c).depth = 0 ∧ (N.cur c).reading = false
  | .sched c => N.running c ≠ .scheduler c ∧ (N.cur c).depth = 1 ∧ (N.cur c).reading = false
  | .swtch c t => N.running c = .scheduler c ∧ (N.cur c).depth = 1 ∧ (N.cur c).reading = false ∧
      ∀ c', N.running c' ≠ .thread t

instance (N : Nest T ncpu) : (a : NestAct T ncpu) → Decidable (N.WellNested a)
  | .readeflags _ | .iret _ => inferInstanceAs (Decidable (_ = _))
  | .cli _ | .interrupt _ => inferInstanceAs (Decidable True)
  | .popcli _ | .syscall _ | .sti _ | .sched _ | .swtch _ _ => inferInstanceAs (Decidable (_ ∧ _))

/-- All processors are about to enter `scheduler`, and no thread has run; it has a trap frame to
return to user space with. -/
structure Nest.Boot (N : Nest T ncpu) : Prop where
  running : ∀ c, N.running c = .scheduler c
  cli : ∀ c, (N.cli c).ncli = 0
  scheduler : ∀ c, N.context (.scheduler c) = ⟨0, [], none, none⟩
  thread : ∀ t, N.context (.thread t) = ⟨1, [.frame true], none, none⟩

/-! ## The invariant -/

/-- Flags that have been read and not used yet are those that the processor has, or had when it was
interrupted. -/
def Settled : Bool → List Item → Prop
  | _, [] => True
  | intr, .flags eflags :: stack => eflags = intr ∧ ∀ i, Settled i stack
  | _, .frame eflags :: stack => Settled eflags stack

theorem settled_of_not_reading {x : Context} {i j : Bool} (hx : x.reading = false)
    (h : Settled i x.stack) : Settled j x.stack := by
  unfold Context.reading at hx
  rcases hs : x.stack with _ | ⟨_ | _, stack⟩ <;> rw [hs] at h hx
  · trivial
  · cases hx
  · exact h

/-- A processor agrees with the context on it. -/
structure OnCpu (k : Cli) (x : Context) : Prop where
  ncli : k.ncli = x.depth
  off : 0 < x.depth → k.intr = false
  settled : Settled k.intr x.stack
  intena : ∀ b, 0 < x.depth → x.was = some b → k.intena = b

/-- A context that has been switched away from.  A scheduler does not take `intena` along. -/
structure Away (w : Who T ncpu) (x : Context) : Prop where
  depth : x.depth = 1
  settled : Settled false x.stack
  saved : ∀ b, x.was = some b → x.saved = some b
  forgets : ∀ c, w = .scheduler c → x.was = none

namespace Nest

structure Inv (N : Nest T ncpu) : Prop where
  on : ∀ c, OnCpu (N.cli c) (N.cur c)
  away : ∀ w, (∀ c, N.running c ≠ w) → Away w (N.context w)
  once : Function.Injective N.running
  home : ∀ c c', N.running c = .scheduler c' → c' = c

variable {N N' : Nest T ncpu} {c : Fin ncpu} {k : Cli} {x : Context}

theorem Inv.setCur (h : Inv N) (hon : OnCpu k x) : Inv (N.setCur c k x) := by
  refine ⟨fun d => ?_, fun w hw => ?_, h.once, h.home⟩
  · by_cases hd : d = c
    · rw [hd]
      simpa [cur, Nest.setCur] using hon
    · have hne : N.running d ≠ N.running c := fun he => hd (h.once he)
      simpa [cur, Nest.setCur, hd, hne] using h.on d
  · have hne : w ≠ N.running c := fun he => hw c he.symm
    simpa [Nest.setCur, hne] using h.away w hw

theorem Inv.switch (h : Inv N) {w : Who T ncpu} (hw : ∀ d, N.running d ≠ w) (hx : Away (N.running c) x)
    (hon : OnCpu k (N.context w)) (hhome : ∀ c', w = .scheduler c' → c' = c) :
    Inv (N.switch c k x w) := by
  have hrun : ∀ d, (N.switch c k x w).running d = if d = c then w else N.running d := fun d =>
    Function.update_apply ..
  refine ⟨fun d => ?_, fun v hv => ?_, fun d d' he => ?_, fun d c' hd => ?_⟩
  · by_cases hd : d = c
    · rw [cur, hrun, if_pos hd, hd]
      simpa [Nest.switch, Nest.setCur, (hw c).symm] using hon
    · have hne : N.running d ≠ N.running c := fun he => hd (h.once he)
      rw [cur, hrun, if_neg hd]
      simpa [Nest.switch, Nest.setCur, hd, hne, cur] using h.on d
  · by_cases hvc : v = N.running c
    · simpa [Nest.switch, Nest.setCur, hvc] using hx
    · have hv' : ∀ d, N.running d ≠ v := fun d => by
        by_cases hd : d = c
        · exact hd ▸ Ne.symm hvc
        · have := hv d
          rwa [hrun, if_neg hd] at this
      simpa [Nest.switch, Nest.setCur, hvc] using h.away v hv'
  · rw [hrun, hrun] at he
    split_ifs at he with h1 h2 h2
    · exact h1.trans h2.symm
    · exact absurd he.symm (hw d')
    · exact absurd he (hw d)
    · exact h.once he
  · rw [hrun] at hd
    split_ifs at hd with h1
    · exact (hhome c' hd).trans h1.symm
    · exact h.home d c' hd

omit [DecidableEq T] in
theorem Boot.inv (h : Boot N) : Inv N where
  on c := by
    rw [cur, h.running, h.scheduler]
    exact ⟨h.cli c, fun hd => absurd hd (lt_irrefl 0), trivial, fun _ hd => absurd hd (lt_irrefl 0)⟩
  away w hw := by
    cases w with
    | thread t =>
      rw [h.thread]
      exact ⟨rfl, trivial, fun _ hb => (by cases hb), fun _ _ => rfl⟩
    | scheduler c => exact absurd (h.running c) (hw c)
  once c c' he := by
    rw [h.running, h.running] at he
    exact Who.scheduler.inj he
  home c c' he := by
    rw [h.running] at he
    exact (Who.scheduler.inj he).symm

theorem popcli_ok (h : OnCpu k x) (hpos : 0 < x.depth) :
    k.popcli = .ok { k with ncli := x.depth - 1, intr := decide (x.depth = 1) && k.intena } := by
  rw [Cli.popcli, h.off hpos, if_neg Bool.false_ne_true, h.ncli, if_neg hpos.ne']

theorem Inv.step (h : Inv N) {a : NestAct T ncpu} (ha : N.WellNested a)
    {r : Except NestPanic (Nest T ncpu)} (hs : Nest.step N a = some r) :
    ∃ N', r = .ok N' ∧ Inv N' := by
  have hcur : ∀ c, OnCpu (N.cli c) (N.cur c) := h.on
  cases a with
  | readeflags c =>
    cases hs
    obtain ⟨hncli, hoff, hset, hint⟩ := hcur c
    exact ⟨_, rfl, h.setCur ⟨hncli, hoff, ⟨rfl, fun _ => settled_of_not_reading ha hset⟩, hint⟩⟩
  | cli c =>
    obtain ⟨hncli, hoff, hset, hint⟩ := hcur c
    simp only [Nest.step] at hs
    split at hs
    · rename_i eflags stack hstack
      cases hs
      rw [hstack] at hset
      obtain ⟨rfl, hset⟩ := hset
      refine ⟨_, rfl, h.setCur ⟨congrArg (· + 1) hncli, fun _ => rfl, hset false, fun b _ hb => ?_⟩⟩
      simp only [hncli]
      split_ifs at hb ⊢ with hd
      · exact Option.some.inj hb
      · exact hint b (Nat.pos_of_ne_zero hd) hb
    · cases hs
  | popcli c =>
    obtain ⟨hpos, hread⟩ := ha
    simp only [Nest.step, popcli_ok (hcur c) hpos] at hs
    cases hs
    obtain ⟨hncli, hoff, hset, hint⟩ := hcur c
    refine ⟨_, rfl, h.setCur ⟨rfl, fun hd => ?_, settled_of_not_reading hread hset, fun b hd hb => ?_⟩⟩
    · simp only at hd
      simp [show (N.cur c).depth ≠ 1 by omega]
    · exact hint b hpos hb
  | interrupt c =>
    simp only [Nest.step] at hs
    split at hs
    · rename_i hintr
      cases hs
      obtain ⟨hncli, hoff, hset, hint⟩ := hcur c
      exact ⟨_, rfl, h.setCur ⟨hncli, fun _ => rfl, hintr ▸ hset, hint⟩⟩
    · cases hs
  | syscall c =>
    cases hs
    obtain ⟨hncli, hoff, hset, hint⟩ := hcur c
    exact ⟨_, rfl, h.setCur ⟨hncli, hoff, hset, hint⟩⟩
  | iret c =>
    have hzero : ¬ 0 < (N.cur c).depth := by
      rw [show (N.cur c).depth = 0 from ha]
      exact lt_irrefl 0
    obtain ⟨hncli, hoff, hset, hint⟩ := hcur c
    simp only [Nest.step] at hs
    split at hs
    · rename_i eflags stack hstack
      cases hs
      rw [hstack] at hset
      exact ⟨_, rfl, h.setCur ⟨hncli, fun hd => absurd hd hzero, hset, fun _ hd => absurd hd hzero⟩⟩
    · cases hs
  | sti c =>
    obtain ⟨-, hzero, hread⟩ := ha
    cases hs
    obtain ⟨hncli, hoff, hset, hint⟩ := hcur c
    exact ⟨_, rfl, h.setCur ⟨hncli, fun hd => absurd hzero hd.ne', settled_of_not_reading hread hset, hint⟩⟩
  | sched c =>
    obtain ⟨hthread, hone, hread⟩ := ha
    obtain ⟨hncli, hoff, hset, hint⟩ := hcur c
    have hpos : 0 < (N.cur c).depth := by omega
    have hncli' : ¬ (N.cli c).ncli ≠ 1 := by omega
    simp only [Nest.step, if_neg hncli', hoff hpos, Bool.false_eq_true, if_false] at hs
    cases hs
    -- the scheduler of this processor runs nowhere else
    have hw : ∀ d, N.running d ≠ .scheduler c := fun d hd => by
      rw [← h.home d c hd] at hd
      exact hthread hd
    obtain ⟨hdepth, hset', -, hforgets⟩ := h.away _ hw
    refine ⟨_, rfl, h.switch hw ⟨hone, settled_of_not_reading hread hset, fun b hb => ?_, fun _ he => ?_⟩
      ⟨hncli.trans (hone.trans hdepth.symm), fun _ => hoff hpos, hoff hpos ▸ hset', fun b _ hb => ?_⟩
      fun c' hc' => (Who.scheduler.inj hc').symm⟩
    · exact congrArg some (hint b hpos hb)
    · exact absurd (h.home c _ he ▸ he) hthread
    · cases (hforgets c rfl).symm.trans hb
  | swtch c t =>
    obtain ⟨hc, hone, hread, hw⟩ := ha
    obtain ⟨hncli, hoff, hset, hint⟩ := hcur c
    cases hs
    obtain ⟨hdepth, hset', hsaved, -⟩ := h.away _ hw
    have hintr := hoff (by omega)
    refine ⟨_, rfl, h.switch hw ⟨hone, settled_of_not_reading hread hset, fun b hb => (by cases hb),
      fun _ _ => rfl⟩ ?_ fun c' hc' => by cases hc'⟩
    refine ⟨hncli.trans (hone.trans hdepth.symm), fun _ => hintr, hintr ▸ hset', fun b _ hb => ?_⟩
    simp only [hsaved b hb, Option.getD_some]

/-- **Interrupts are nested as the threads nest them.** -/
structure Nested (N : Nest T ncpu) : Prop where
  off : ∀ c, 0 < (N.cli c).ncli → (N.cli c).intr = false
  safe : ∀ a, N.WellNested a → ∀ p, Nest.step N a ≠ some (.error p)
  /-- The outermost `popcli` of a thread undoes its outermost `pushcli`. -/
  restored : ∀ c t b N', N.running c = .thread t → (N.cur c).depth = 1 → (N.cur c).was = some b →
    Nest.step N (.popcli c) = some (.ok N') → (N'.cli c).intr = b

/-- **Interrupt nesting survives context switches**, for any number of threads and processors, and
wherever a thread goes on. -/
theorem nesting_survives (h : Reach Nest.step WellNested Boot N) : Nested N := by
  have hinv : Inv N := by
    refine Reach.invariant (I := Inv) (fun _ hb => hb.inv) (fun N a N' hN ha hs => ?_) h
    obtain ⟨N'', hN'', hinv⟩ := hN.step ha hs
    exact Except.ok.inj hN'' ▸ hinv
  refine ⟨fun c hpos => (hinv.on c).off ((hinv.on c).ncli ▸ hpos), fun a ha p hp => ?_,
    fun c t b N' ht hone hwas hs => ?_⟩
  · obtain ⟨N', hN', -⟩ := hinv.step ha hp
    cases hN'
  · have hpos : 0 < (N.cur c).depth := by omega
    simp only [Nest.step, popcli_ok (hinv.on c) hpos, hone, (hinv.on c).intena b hpos hwas] at hs
    cases hs
    simp [Nest.setCur]

end Nest

end Steps

/-- Both processors are about to enter `scheduler`. -/
def twoCpus : Nest ℕ 2 where
  cli _ := ⟨0, false, false⟩
  running := .scheduler
  context
    | .thread _ => ⟨1, [.frame true], none, none⟩
    | .scheduler _ => ⟨0, [], none, none⟩

/-- A thread comes to user space on processor `c` and goes to sleep in a system call, and `d` goes on
with it. -/
def moves (c d : Fin 2) : List (NestAct ℕ 2) :=
  [.sti c, .readeflags c, .cli c, .swtch c 7, .popcli c, .iret c, .syscall c, .readeflags c, .cli c,
    .sched c, .sti d, .readeflags d, .cli d, .swtch d 7]

theorem nesting_survives_moves : ∃ N : Nest ℕ 2, Reach Nest.step Nest.WellNested Nest.Boot N ∧ N.Nested ∧
    N.running 1 = .thread 7 ∧ (N.cur 1).was = some true ∧ (N.cli 1).ncli = 1 := by
  have hm : Meets Nest.step Nest.WellNested twoCpus (moves 0 1) := by decide
  have he : endsIn Nest.step twoCpus (moves 0 1) (fun N => decide (N.running 1 = .thread 7 ∧
      (N.cur 1).was = some true ∧ (N.cli 1).ncli = 1)) = true := by decide
  have hboot : twoCpus.Boot := ⟨fun _ => rfl, fun _ => rfl, fun _ => rfl, fun _ => rfl⟩
  obtain ⟨N, hN, htest⟩ := Reach.of_endsIn hboot he hm
  exact ⟨N, hN, Nest.nesting_survives hN, of_decide_eq_true htest⟩

end Xv6.Sleep
