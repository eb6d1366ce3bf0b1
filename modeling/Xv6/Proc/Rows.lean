import Xv6.Proc.Kill
import Xv6.Proc.ExitNotice

/-!
# Who follows the pointer `threads`

`p->threads` points to the row of `ptable.tTable` that belongs to the entry `p`.  It is null
in an entry that was never used, `allocproc` sets it, and `exit` clears it again, while the
entry stays in the table as a zombie with its identifier and its parent.  The functions that
go through the table and look into rows each have their own idea of whose row to look into:
`scheduler` and `wakeup1` look at the state of the process, `kill` at its identifier, `exit`
at its parent, `procdump` at nothing, and the calls on threads take the row of their own
process.  Where the pointer is null they read, and write, user memory.
-/

namespace Xv6.Proc

open Transition Kernel

variable {ncpu : ℕ} {S S' : Kernel ncpu}

/-! ## The row that `allocproc` finds

An entry of the model says only that the pointer is set, to the entry's own row.  The source
goes through the entries with a pointer and counts them in `i`, and it is `tTable[i]` that it
stores. -/

/-- The loop of `allocproc`: the entry found, and the row. -/
def allocScan (S : Kernel ncpu) : List PId → ℕ → Option (PId × ℕ)
  | [], _ => none
  | p :: ps, i => if (S.proc p).state = .unused then some (p, i) else allocScan S ps (i + 1)

theorem allocScan_spec (S : Kernel ncpu) (ps : List PId) (i : ℕ)
    (hps : ∀ n (h : n < ps.length), (ps.get ⟨n, h⟩).val = i + n) :
    allocScan S ps i = (ps.find? fun q => (S.proc q).state == .unused).map fun q => (q, q.val) := by
  induction ps generalizing i with
  | nil => rfl
  | cons p ps ih =>
    have hp : p.val = i := hps 0 (by simp)
    by_cases hun : (S.proc p).state = .unused
    · simp [allocScan, hun, hp]
    · have hrest : ∀ n (h : n < ps.length), (ps.get ⟨n, h⟩).val = i + 1 + n := by
        intro n hn
        have := hps (n + 1) (by simpa using hn)
        simpa [add_assoc, add_comm 1 n] using this
      rw [allocScan, if_neg hun, ih (i + 1) hrest, List.find?_cons_of_neg (by simpa using hun)]

/-- **The row that `allocproc` stores is the entry's own.** -/
theorem allocScan_row (S : Kernel ncpu) :
    allocScan S (List.finRange nproc) 0 = S.procAlloc.1.map fun q => (q, q.val) := by
  rw [allocScan_spec S _ 0 (by simp)]
  unfold procAlloc first?
  cases (List.finRange nproc).find? fun q => (S.proc q).state == .unused <;> rfl

/-! ## Walks through the rows -/

/-- The functions of the kernel that look into rows; those that look into the row of their own
process have it as an argument. -/
inductive Walk where
  | kill (pid : Int32)
  | exit (p : PId)
  | procdump
  | scheduler
  | wakeup
  | kthreadCreate (p : PId)
  | kthreadExit (p : PId)
  | kthreadJoin (p : PId)

namespace Walk

/-- The function looks into the row of the entry. -/
def follows (S : Kernel ncpu) : Walk → PId → Bool
  | kill pid, q => S.pidEntry pid == some q
  -- `wakeup1` first, then the children, then the process itself
  | exit p, q => (S.proc q).isReady || (S.proc q).parent == some p || q == p
  | procdump, _ => true
  | scheduler, q => (S.proc q).isReady
  | wakeup, q => (S.proc q).isReady
  | kthreadCreate p, q => q == p
  | kthreadExit p, q => q == p
  | kthreadJoin p, q => q == p

/-- The process that calls the function, if that is what its row depends on. -/
def caller : Walk → Option PId
  | exit p | kthreadCreate p | kthreadExit p | kthreadJoin p => some p
  | _ => none

/-- The process that calls the function runs on some processor. -/
def Called (S : Kernel ncpu) (w : Walk) : Prop :=
  ∀ p, w.caller = some p → ∃ c t, (S.cpu c).thread = some (p, t)

/-- The pointer is set in every entry whose row the function looks into. -/
def Valid (S : Kernel ncpu) (w : Walk) : Prop :=
  ∀ q, w.follows S q = true → (S.proc q).threads = true

/-- What the function does not test itself: `kill` stops at an entry that is neither unused
nor a zombie, no child of a process that exits is a zombie, and `procdump` is called when all
entries are in use by processes that have not exited. -/
def Spared (S : Kernel ncpu) : Walk → Prop
  | kill pid => ∀ q, S.pidEntry pid = some q → (S.proc q).state.live = true
  | exit p => ∀ q, (S.proc q).parent = some p → (S.proc q).state ≠ .zombie
  | procdump => ∀ q, (S.proc q).state.live = true
  | _ => True

end Walk

theorem Tables.row_of_running (h : Tables S) {p : PId}
    (hp : ∃ c t, (S.cpu c).thread = some (p, t)) : (S.proc p).threads = true := by
  obtain ⟨c, t, hc⟩ := hp
  exact h.row (Entry.live_of_isReady (h.ready (h.running_live hc)))

/-- **The pointer is valid wherever it is followed**, in every state that orderly steps reach,
for every function that is spared what it does not test. -/
theorem rows_valid (h : Reach step Orderly Booted S) (w : Walk) (hc : w.Called S)
    (hs : w.Spared S) : w.Valid S := by
  obtain ⟨G, hi⟩ := inv_of_reach h
  have hready : ∀ {q}, (S.proc q).isReady = true → (S.proc q).threads = true :=
    fun hq => hi.row (Entry.live_of_isReady hq)
  intro q hq
  cases w with
  | kill pid => exact hi.row (hs q (by simpa [Walk.follows] using hq))
  | procdump => exact hi.row (hs q)
  | scheduler | wakeup => exact hready hq
  | kthreadCreate p | kthreadExit p | kthreadJoin p =>
    obtain rfl : q = p := by simpa [Walk.follows] using hq
    exact hi.row_of_running (hc q rfl)
  | exit p =>
    simp only [Walk.follows, Bool.or_eq_true, beq_iff_eq] at hq
    obtain (hq | hpar) | rfl := hq
    · exact hready hq
    · -- an unused entry has no parent
      refine hi.row ?_
      cases hstate : (S.proc q).state with
      | unused => simp [hi.orphan hstate] at hpar
      | zombie => exact absurd hstate (hs q hpar)
      | _ => rfl
    · exact hi.row_of_running (hc q rfl)

set_option maxRecDepth 10000 in
/-- `init` has a child that runs: `init` may kill it, and the child may exit. -/
theorem rows_valid_childRuns :
    ∃ S : Kernel 2, Reach step Orderly Booted S ∧ (Walk.kill 2).Valid S ∧ (Walk.exit 1).Valid S := by
  have hm : Meets step Orderly booted childRuns := by decide +kernel
  have he : endsIn step booted childRuns (fun S => S.pidEntry 2 == some 1 &&
      (S.proc 1).state.live && (S.cpu cpu1).thread == some (1, 0) &&
      (List.finRange nproc).all fun q => (S.proc q).parent != some 1) = true := by decide +kernel
  obtain ⟨S, hS, htest⟩ := Reach.of_endsIn booted_booted he hm
  simp only [Bool.and_eq_true, beq_iff_eq, List.all_eq_true, bne_iff_ne] at htest
  obtain ⟨⟨⟨hpid, hlive⟩, hcpu⟩, hkids⟩ := htest
  refine ⟨S, hS, rows_valid hS _ (fun p hp => by cases hp) fun q hq => ?_,
    rows_valid hS _ (fun p hp => ?_) fun q hq => absurd hq (hkids q (List.mem_finRange q))⟩
  · cases hpid.symm.trans hq
    exact hlive
  · cases hp
    exact ⟨cpu1, 0, hcpu⟩

/-- The child of `init` forks a child of its own, which exits. -/
def zombieLeft : List (Act 2) :=
  initWaiting ++ forks cpu1 30 31 ++ [.schedule cpu0 (2, 0), go cpu0] ++ calls cpu0 .exit 28

/-- The child of `init` has two threads, each on a processor, and one of them exits. -/
def siblingLeft : List (Act 2) :=
  childRuns ++ calls cpu1 (.kthreadCreate 4096) 6 ++ calls cpu0 .wait 3 ++
    [.schedule cpu0 (1, 1), go cpu0] ++ calls cpu1 .exit 28

/-- Test: the function is called, and looks into the row of `q`, which has none. -/
def Walk.strays (S : Kernel ncpu) (w : Walk) (q : PId) : Bool :=
  w.follows S q && !(S.proc q).threads &&
    w.caller.all fun p => (List.finRange ncpu).any fun c => (S.cpu c).thread.any fun u => u.1 == p

theorem Walk.not_valid_of_strays {w : Walk} {q : PId} (h : w.strays S q = true) :
    w.Called S ∧ ¬w.Valid S := by
  simp only [strays, Bool.and_eq_true, Bool.not_eq_true'] at h
  obtain ⟨⟨hfollows, hnull⟩, hcalled⟩ := h
  refine ⟨fun p hp => ?_, fun hv => absurd ((hv q hfollows).symm.trans hnull) (by simp)⟩
  simp only [hp, Option.all_some, List.any_eq_true] at hcalled
  obtain ⟨c, -, hc⟩ := hcalled
  cases hu : (S.cpu c).thread with
  | none => simp [hu] at hc
  | some u =>
    obtain rfl : u.1 = p := by simpa [hu] using hc
    exact ⟨c, u.2, hu⟩

/-- The function can be called in a state that a run reaches, and looks into a row that is not
there. -/
def Walk.Strays (w : Walk) : Prop :=
  ∃ S : Kernel 2, Reach step anyStep Booted S ∧ w.Called S ∧ ¬w.Valid S

theorem Walk.strays_of_run {w : Walk} {q : PId} (as : List (Act 2))
    (h : endsIn step booted as (fun S => w.strays S q) = true) : w.Strays := by
  obtain ⟨S, hS, htest⟩ := Reach.of_endsIn booted_booted h
  exact ⟨S, hS, not_valid_of_strays htest⟩

set_option maxRecDepth 20000 in
/-- **The pointer is followed where it is null**: by `procdump` from the start, and by
`kill(0)`, in an entry that was never used; by `kill` of a process that has exited; by `exit`
of a process that has a child that has exited; and by the calls on threads of a thread whose
process another thread has left by `exit`. -/
theorem rows_null :
    Walk.procdump.Strays ∧ (Walk.kill 0).Strays ∧ (Walk.kill 3).Strays ∧ (Walk.exit 1).Strays ∧
      (Walk.kthreadCreate 1).Strays ∧ (Walk.kthreadExit 1).Strays ∧ (Walk.kthreadJoin 1).Strays := by
  refine ⟨Walk.strays_of_run (q := 1) initRuns ?_, Walk.strays_of_run (q := 1) initRuns ?_,
    Walk.strays_of_run (q := 2) zombieLeft ?_, Walk.strays_of_run (q := 2) zombieLeft ?_,
    Walk.strays_of_run (q := 1) siblingLeft ?_, Walk.strays_of_run (q := 1) siblingLeft ?_,
    Walk.strays_of_run (q := 1) siblingLeft ?_⟩ <;>
  decide +kernel

end Xv6.Proc
