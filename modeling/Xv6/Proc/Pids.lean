import Xv6.Proc.Reaping

/-!
# Process identifiers

`allocproc` hands out `nextpid++` and does not look whether a process has that identifier.  As long
as the counter has not come round the identifiers are the serial numbers of the annals, so that two
processes have different ones, all of them positive.  A `fork` that fails uses one up as well, and
`init` stays; so a process that does nothing but fork in vain brings the counter to `INT_MAX`, and the
next identifier is negative.
-/

namespace Xv6.Proc

open Function Transition Kernel

/-- **Identifiers are positive, and identify processes.** -/
structure Identified {ncpu : ℕ} (S : Kernel ncpu) : Prop where
  positive : ∀ q, (S.proc q).state ≠ .unused → 0 < (S.proc q).pid
  unique : ∀ p q, (S.proc p).state ≠ .unused → (S.proc q).state ≠ .unused →
    (S.proc p).pid = (S.proc q).pid → p = q

theorem toInt_ofNat_of_lt {n : ℕ} (h : n < 2 ^ 31) : (Int32.ofNat n).toInt = n := by
  rw [Int32.toInt_ofNat', Int.bmod_eq_of_le] <;> simp only [Int32.size] <;> omega

/-- **Process identifiers identify processes as long as the counter has not come round**: in every
run of single-threaded processes in which `allocproc` has taken less than `2 ^ 31 - 1` entries. -/
theorem pids_identify {ncpu : ℕ} {x : Kernel ncpu × Annals}
    (h : Reach stepRecorded (fun x a => SingleThreaded x.1 a) Unrecorded x)
    (hborn : x.2.born ≤ 2 ^ 31) : Identified x.1 := by
  obtain ⟨G, -, -, hch⟩ := chronicle_of_reach h
  have hpid : ∀ {q}, (x.1.proc q).state ≠ .unused → (x.1.proc q).pid.toInt = x.2.serial q := by
    intro q hq
    rw [hch.pid hq, toInt_ofNat_of_lt ((hch.lt hq).trans_le hborn)]
  refine ⟨fun q hq => ?_, fun p q hp hq heq => hch.inj hp hq ?_⟩
  · rw [Int32.lt_iff_toInt_lt, hpid hq]
    exact Int.natCast_pos.mpr (hch.pos hq)
  · have := congrArg Int32.toInt heq
    rw [hpid hp, hpid hq] at this
    exact Int.ofNat.inj this

/-- `init` has a child, whose identifier is 2. -/
theorem pids_identify_initReaps : ∃ x : Kernel 2 × Annals, Identified x.1 ∧
    (x.1.proc 0).pid = 1 ∧ (x.1.proc 1).state ≠ .unused ∧ (x.1.proc 1).pid = 2 := by
  have hm : Meets stepRecorded (fun x a => SingleThreaded x.1 a) unrecorded childRuns := by
    decide +kernel
  have he : endsIn stepRecorded unrecorded childRuns (fun x => decide (x.2.born = 3 ∧
      (x.1.proc 0).pid = 1 ∧ (x.1.proc 1).state ≠ .unused ∧ (x.1.proc 1).pid = 2)) = true := by
    decide +kernel
  obtain ⟨x, hx, htest⟩ := Reach.of_endsIn unrecorded_unrecorded he hm
  obtain ⟨hborn, hrest⟩ := of_decide_eq_true htest
  exact ⟨x, pids_identify hx (by rw [hborn]; decide), hrest⟩

/-! ## The counter comes round -/

/-- The runs of single-threaded processes, with their annals. -/
abbrev Recorded (x : Kernel 2 × Annals) : Prop :=
  Reach stepRecorded (fun x a => SingleThreaded x.1 a) Unrecorded x

/-- `init` is in user space, and the second entry of the table is the first that is free. -/
structure Resting (S : Kernel 2) : Prop where
  cpu : (S.cpu cpu0).thread = some (0, 0)
  code : S.code (0, 0) = .ret ()
  killed : (S.proc 0).killed = false
  free : (first? fun q => (S.proc q).state == .unused) = some 1

/-- In state `S`, which a run has come to with the annals `A`, `init` is on its processor and has the
program `m` before it. -/
structure Before (S : Kernel 2) (A : Annals) (m : KProg Unit) : Prop where
  reached : Recorded (S, A)
  cpu : (S.cpu cpu0).thread = some (0, 0)
  code : S.code (0, 0) = m

theorem Before.performs {S S' : Kernel 2} {A : Annals} {e : KOp} {k : e.Ans → KProg Unit} {r : e.Ans}
    (h : Before S A (.vis e k)) (he : e.threaded = false)
    (hp : S.perform cpu0 (0, 0) ⟨0, [], 0⟩ e = some (.done r S')) (hcpu : S'.cpu = S.cpu) :
    ∃ S₁, Before S₁ (A.record S (0, 0) e r) (k r) ∧ S₁.proc = S'.proc ∧ S₁.nextpid = S'.nextpid := by
  have hnext : S.nextOp cpu0 = some ((0, 0), e) := nextOp_eq h.cpu h.code
  refine ⟨{ S' with code := update S'.code (0, 0) (k r) }, ⟨?_, ?_, ?_⟩, rfl, rfl⟩
  · refine h.reached.next (a := go cpu0) ?_ ?_
    · simp [SingleThreaded, singleThreaded, go, hnext, he]
    · simp only [stepRecorded, step, go, h.cpu, h.code, hp, annals, hnext]
  · rw [hcpu, h.cpu]
  · simp

theorem Resting.allocates {S : Kernel 2} {A : Annals} (h : Resting S) (hr : Recorded (S, A)) :
    ∃ S' k, Before S' (A.take 1) (.vis (.stackAlloc 1) k) ∧ k false = exitIfKilled ∧
      (∀ q ≠ 1, S'.proc q = S.proc q) ∧ (S'.proc 1).state = .embryo ∧ (S'.proc 1).pid = S.nextpid := by
  obtain ⟨S₁, h1, hproc₁, hpid₁⟩ : ∃ S₁, Before S₁ A (trap (.syscall .fork)) ∧ S₁.proc = S.proc ∧
      S₁.nextpid = S.nextpid := by
    refine ⟨{ S.setCpu cpu0 fun k => { k with ktop := k.esp0 } with
      code := update S.code (0, 0) (trap (.syscall .fork)) }, ⟨?_, ?_, ?_⟩, rfl, rfl⟩
    · refine hr.next (a := .enter cpu0 (.syscall .fork)) rfl ?_
      simp only [stepRecorded, step, h.cpu, h.code, annals]
    · simp [setCpu, h.cpu]
    · simp
  obtain ⟨S₂, h2, hproc₂, hpid₂⟩ := h1.performs (e := .killed) (r := false) rfl
    (by rw [perform, hproc₁, h.killed]) rfl
  obtain ⟨S₃, h3, hproc₃, hpid₃⟩ := h2.performs (e := .setTf) rfl rfl rfl
  have hproc : S₃.proc = S.proc := hproc₃.trans (hproc₂.trans hproc₁)
  have hpid : S₃.nextpid = S.nextpid := hpid₃.trans (hpid₂.trans hpid₁)
  have halloc : S₃.procAlloc = (some 1,
      { S₃.setProc 1 fun e => { e with state := .embryo, threads := true, pid := S₃.nextpid } with
        nextpid := S₃.nextpid + 1
        exiting := update S₃.exiting 1 false }) := by
    simp only [procAlloc, hproc, h.free]
  obtain ⟨S₄, h4, hproc₄, -⟩ := h3.performs (e := .procAlloc) (r := some 1) rfl
    (by rw [perform, halloc]) (by rfl)
  refine ⟨S₄, _, h4, rfl, fun q hq => ?_, ?_, ?_⟩
  · simp [hproc₄, hq, hproc]
  · simp [hproc₄]
  · simp [hproc₄, hpid]

theorem Resting.forks {S : Kernel 2} {A : Annals} (h : Resting S) (hr : Recorded (S, A)) :
    ∃ S', Recorded (S', A.take 1) ∧ Resting S' := by
  obtain ⟨S₁, k, h1, hk, hproc, -, -⟩ := h.allocates hr
  obtain ⟨S₂, h2, hproc₂, -⟩ := h1.performs (r := false) rfl rfl (by rfl)
  have hzero : S₂.proc 0 = S.proc 0 := by
    have hne : (0 : PId) ≠ 1 := by decide
    rw [hproc₂, setProc_ne _ hne, hproc 0 hne]
  obtain ⟨S₃, h3, hproc₃, -⟩ := (hk ▸ h2).performs (e := .killed) (r := false) rfl
    (by rw [perform, hzero, h.killed]) rfl
  have hstate : ∀ q, (S₃.proc q).state = (S.proc q).state := by
    intro q
    rw [hproc₃, hproc₂]
    by_cases hq : q = 1
    · have hfree : (S.proc 1).state = .unused := by simpa using first?_eq_some h.free
      simp [hq, hfree]
    · simp [hq, hproc q hq]
  refine ⟨S₃, h3.reached, h3.cpu, h3.code, ?_, ?_⟩
  · rw [hproc₃, hzero, h.killed]
  · exact (congrArg first? (funext fun q => congrArg (· == RunState.unused) (hstate q))).trans h.free

theorem resting_of_born (n : ℕ) : ∃ S A, Recorded (S, A) ∧ Resting S ∧ A.born = n + 2 := by
  induction n with
  | zero =>
    have hm : Meets stepRecorded (fun x a => SingleThreaded x.1 a) unrecorded initRuns := by
      decide +kernel
    have he : endsIn stepRecorded unrecorded initRuns (fun x => decide (x.2.born = 2 ∧
        (x.1.cpu cpu0).thread = some (0, 0) ∧ x.1.nextOp cpu0 = none ∧ (x.1.proc 0).killed = false ∧
        (first? fun q => (x.1.proc q).state == .unused) = some 1)) = true := by
      decide +kernel
    obtain ⟨x, hx, htest⟩ := Reach.of_endsIn unrecorded_unrecorded he hm
    obtain ⟨hborn, hcpu, hnext, hkilled, hfree⟩ := of_decide_eq_true htest
    refine ⟨x.1, x.2, hx, ⟨hcpu, ?_, hkilled, hfree⟩, hborn⟩
    cases hcode : x.1.code (0, 0) with
    | ret => rfl
    | vis e k => cases (nextOp_eq hcpu hcode).symm.trans hnext
  | succ n ih =>
    obtain ⟨S, A, hr, hrest, hborn⟩ := ih
    obtain ⟨S', hr', hrest'⟩ := hrest.forks hr
    exact ⟨S', A.take 1, hr', hrest', congrArg (· + 1) hborn⟩

/-- **The counter comes round**: `init` has forked in vain for as long as there were positive
identifiers, and now its child has a negative one. -/
theorem pid_negative : ∃ x : Kernel 2 × Annals, Recorded x ∧
    (x.1.proc 1).state = .embryo ∧ (x.1.proc 1).pid = Int32.minValue ∧ ¬ Identified x.1 := by
  obtain ⟨S, A, hr, hrest, hborn⟩ := resting_of_born (2 ^ 31 - 2)
  obtain ⟨S', k, h', -, -, hstate, hpid⟩ := hrest.allocates hr
  obtain ⟨G, -, -, hch⟩ := chronicle_of_reach hr
  have hmin : (S'.proc 1).pid = Int32.minValue := by
    rw [hpid, hch.next, hborn]
    rfl
  refine ⟨(S', A.take 1), h'.reached, hstate, hmin, fun hid => ?_⟩
  have hpos := hid.positive 1 (by rw [hstate]; decide)
  rw [hmin] at hpos
  exact absurd hpos (by decide)

end Xv6.Proc
