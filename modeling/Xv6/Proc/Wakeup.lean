import Xv6.Proc.LifecycleSteps

/-!
# `wakeup` wakes everyone

`wakeup1` goes through the process table and passes over the processes that are not
ready, so a thread that sleeps in one of those is missed, and nothing else will ever wake
it.  That no thread sleeps there is the part of the life cycle that `Tables.ready` states;
it holds as long as steps are `Orderly`.
-/

namespace Xv6.Proc

open Transition Kernel

variable {ncpu : ℕ} {S : Kernel ncpu}

namespace Kernel

/-- The thread sleeps on the channel. -/
def sleepsOn (S : Kernel ncpu) (chan : Chan) (s : Slot) : Bool :=
  (S.thread s).state == .sleeping && (S.thread s).chan == chan

end Kernel

theorem sleepsOn_iff {chan : Chan} {s : Slot} :
    S.sleepsOn chan s = true ↔ (S.thread s).state = .sleeping ∧ (S.thread s).chan = chan := by
  simp [sleepsOn]

theorem wakeup1_thread_of_ready {s : Slot} (hready : (S.proc s.1).isReady = true)
    (hrow : (S.proc s.1).threads = true) (chan : Chan) :
    (S.wakeup1 chan).thread s = wake chan (S.thread s) := by
  simp [wakeup1, hready, hrow]

theorem wakeup1_thread_of_not_sleepsOn {chan : Chan} {s : Slot} (hs : S.sleepsOn chan s = false) :
    (S.wakeup1 chan).thread s = S.thread s := by
  have hs' : ¬((S.thread s).state = .sleeping ∧ (S.thread s).chan = chan) := by
    rw [← sleepsOn_iff, hs]
    exact Bool.false_ne_true
  simp [wakeup1, wake, hs']

/-- A thread that sleeps on the channel in a table that is in order becomes runnable, and
is otherwise unchanged. -/
theorem Tables.wakeup1_sleepsOn (h : Tables S) {chan : Chan} {s : Slot}
    (hs : S.sleepsOn chan s = true) :
    (S.wakeup1 chan).thread s = { S.thread s with state := .runnable } := by
  have hsleep := sleepsOn_iff.mp hs
  have hready := h.ready (s := s) (by simp [hsleep.1])
  rw [wakeup1_thread_of_ready hready (h.row (Entry.live_of_isReady hready)), wake, if_pos hsleep]

/-- **`wakeup` is complete.**  In every state that orderly steps reach, no thread sleeps on
the channel after `wakeup`; those that did are runnable, and nothing else has changed in any
thread. -/
theorem wakeup_complete (h : Reach step Orderly Booted S) (chan : Chan) :
    (∀ s, (S.wakeup1 chan).sleepsOn chan s = false) ∧
    (∀ s, S.sleepsOn chan s = true →
      (S.wakeup1 chan).thread s = { S.thread s with state := .runnable }) ∧
    ∀ s, S.sleepsOn chan s = false → (S.wakeup1 chan).thread s = S.thread s := by
  obtain ⟨G, hG⟩ := inv_of_reach h
  refine ⟨fun s => ?_, fun s hs => hG.wakeup1_sleepsOn hs,
    fun s hs => wakeup1_thread_of_not_sleepsOn hs⟩
  cases hs : S.sleepsOn chan s with
  | true => simp [sleepsOn, hG.wakeup1_sleepsOn hs]
  | false =>
    rw [sleepsOn, wakeup1_thread_of_not_sleepsOn hs]
    exact hs

/-- The first process is about to commit when its child asks for a log operation. -/
def childWaitsForLog : List (Act 2) :=
  childRuns ++ calls cpu0 (.unlink (some [])) 7 ++ calls cpu1 (.unlink (some [])) 3

set_option maxRecDepth 10000 in
/-- A child that waits for the log is woken up. -/
theorem wakeup_complete_childWaits :
    ∃ S : Kernel 2, Reach step Orderly Booted S ∧ S.sleepsOn .log (1, 0) = true ∧
      (S.wakeup1 .log).thread (1, 0) = { S.thread (1, 0) with state := .runnable } := by
  have hm : Meets step Orderly booted childWaitsForLog := by decide +kernel
  have he : endsIn step booted childWaitsForLog (·.sleepsOn .log (1, 0)) = true := by decide +kernel
  obtain ⟨S, hS, hs⟩ := Reach.of_endsIn booted_booted he hm
  exact ⟨S, hS, hs, (wakeup_complete hS .log).2.1 (1, 0) hs⟩

/-- The first process is about to commit when the only thread of its child calls
`kthread_exit`. -/
def childExitsThread : List (Act 2) :=
  childRuns ++ calls cpu0 (.unlink (some [])) 7 ++ calls cpu1 .kthreadExit 21

set_option maxRecDepth 10000 in
/-- The last thread of a process, on its way through `exit`, is passed over. -/
theorem wakeup_misses_last_thread :
    ∃ S : Kernel 2, Reach step anyStep Booted S ∧
      (S.wakeup1 .log).sleepsOn .log (1, 0) = true := by
  have he : endsIn step booted childExitsThread
      (fun S => (S.wakeup1 .log).sleepsOn .log (1, 0)) = true := by decide +kernel
  exact Reach.of_endsIn booted_booted he

end Xv6.Proc
