import Xv6.Proc.LifecycleSteps
import Xv6.Lib.Holding

/-!
# Busy buffers, busy inodes and open log operations

A buffer or an inode that is marked busy, and a log operation that has been begun, keep
others waiting until the thread that is responsible lets go.  Nothing in the source says
who that is.  Here the holders are recorded, and `Held` says that they are what the
threads' own code thinks they are.

A thread leaves the kernel, or calls `kthread_exit` or `exit`, with nothing in its hands;
so what is held is always held by somebody whose code is bound to let go of it
(`Prog.Must`).  What can go wrong is that the holder does not get to run that code:
`exit` makes zombies of all threads of the process, wherever they are.  So besides being
`Orderly` the steps must be `Careful`: no other thread of the process holds anything when
`exit` comes to its end.
-/

namespace Xv6.Proc

open Function Transition Kernel
open Fs (Inum)

variable {ncpu : ℕ} {S S' : Kernel ncpu} {G : Slot → Ctx} {c : Fin ncpu} {s : Slot}

/-- Operations after which a thread does not come back. -/
def KOp.ends (e : KOp) : Prop := e = .threadExit ∨ e = .exitDone

/-- The thread holds a busy buffer, a busy inode or a log operation. -/
def Kernel.Holds (S : Kernel ncpu) (u : Slot) : Prop :=
  (∃ b, S.bufHolder b = some u) ∨ (∃ ip, S.inodeHolder ip = some u) ∨ 0 < S.units u

/-- The orderly steps in which `exit` comes to its end only when no other thread of the
process holds anything. -/
def Careful (S : Kernel ncpu) (a : Act ncpu) : Prop :=
  Orderly S a ∧
    match a with
    | .run c _ => ∀ s, S.nextOp c = some (s, .exitDone) → ∀ u : Slot, u.1 = s.1 → u ≠ s → ¬S.Holds u
    | _ => True

/-- The thread can still run and is bound to perform an operation of `P`: it is
`RUNNABLE`, or `SLEEPING`, or `RUNNING` on some processor; the scheduler and `wakeup` look
at its process; and its code comes to such an operation whatever happens. -/
structure Bound (S : Kernel ncpu) (s : Slot) (P : KOp → Prop) : Prop where
  state : (S.thread s).state = .runnable ∨ (S.thread s).state = .sleeping ∨
    (S.thread s).state = .running ∧ ∃ c, (S.cpu c).thread = some s
  ready : (S.proc s.1).isReady = true ∧ (S.proc s.1).threads = true
  code : (S.code s).Must P KOp.ends

/-- The holders are who the threads think they are. -/
structure Held (S : Kernel ncpu) (G : Slot → Ctx) : Prop where
  bufs : Holding (fun s => (S.thread s).state.active = true) S.bufHolder fun s => (G s).bufs
  inodes : Holding (fun s => (S.thread s).state.active = true) S.inodeHolder fun s => (G s).inodes
  ops : Tally (fun s => (S.thread s).state.active = true) S.units (fun s => (G s).ops) S.outstanding
  placed : ∀ {s}, (S.thread s).state = .running → ∃ c, (S.cpu c).thread = some s

/-! ## Operations -/

theorem next_holds {e : KOp} (he : e.keepsHolds = true) (r : e.Ans) (g : Ctx) :
    (e.next r g).bufs = g.bufs ∧ (e.next r g).inodes = g.inodes ∧ (e.next r g).ops = g.ops := by
  cases e with
  | ofile fd => cases r <;> exact ⟨rfl, rfl, rfl⟩
  | setOfile fd f => cases f <;> exact ⟨rfl, rfl, rfl⟩
  | setCwd ip => cases ip <;> exact ⟨rfl, rfl, rfl⟩
  | _ => first | exact ⟨rfl, rfl, rfl⟩ | cases he

namespace Held

variable {e : KOp} {k : e.Ans → KProg Unit} {ch : Choice} {r : e.Ans} {g : Ctx}

theorem change {G' : Slot → Ctx} (h : Held S G) (hh : SameHolds S S')
    (hG : ∀ u, (S.thread u).state.active = true → (S'.thread u).state.active = true → G' u = G u)
    (hcome : ∀ u, (S'.thread u).state.active = true →
      (S.thread u).state.active = true ∨ G' u = .start)
    (hgo : ∀ u, (S.thread u).state.active = true → (S'.thread u).state.active = true ∨
      (G u).bufs = 0 ∧ (G u).inodes = 0 ∧ (G u).ops = 0)
    (hplaced : ∀ {u}, (S'.thread u).state = .running → ∃ c, (S'.cpu c).thread = some u) :
    Held S' G' := by
  refine ⟨?_, ?_, ?_, hplaced⟩
  · rw [hh.bufHolder]
    exact h.bufs.change (fun u hu hu' => by rw [hG u hu hu'])
      (fun u hu => (hcome u hu).imp_right fun he => by rw [he]; rfl)
      fun u hu => (hgo u hu).imp_right And.left
  · rw [hh.inodeHolder]
    exact h.inodes.change (fun u hu hu' => by rw [hG u hu hu'])
      (fun u hu => (hcome u hu).imp_right fun he => by rw [he]; rfl)
      fun u hu => (hgo u hu).imp_right fun h => h.2.1
  · rw [hh.units, hh.outstanding]
    exact h.ops.change (fun u hu hu' => by rw [hG u hu hu'])
      (fun u hu => (hcome u hu).imp_right fun he => by rw [he]; rfl)
      fun u hu => (hgo u hu).imp_right fun h => h.2.2

theorem answered (ha : Answered S S' G c s ch e k r) (h : Held { S with
        bufHolder := S'.bufHolder, inodeHolder := S'.inodeHolder
        units := S'.units, outstanding := S'.outstanding }
      (update G s (e.next r (G s)))) :
    Held { S' with code := update S'.code s (k r) } (learn G s e r) := by
  have hs := ha.active
  have hpre := ha.pre
  have hnew : ∀ {u}, (S.thread u).state.active = true → e.starts s ≠ some u :=
    fun hu hst => Bool.false_ne_true ((ha.inv.starts_not_active ha.cpu hpre hst).symm.trans hu)
  refine h.change ⟨rfl, rfl, rfl, rfl⟩ (fun u hu _ => ?_) (fun u hu => ?_) (fun u hu => ?_)
    fun {u} hu => ?_
  · by_cases hus : u = s
    · subst hus
      rw [learn_self G r (hnew hu), update_self]
    · rw [learn_ne G r hus (hnew hu), update_of_ne hus]
  · by_cases hst : e.starts s = some u
    · exact .inr (learn_starts G r hst)
    · exact .inl ((ha.thread hst).active_iff.mp hu)
  · exact .inl ((ha.thread (hnew hu)).active_iff.mpr hu)
  · have hst : e.starts s ≠ some u := by
      intro hst
      have := (starts_runnable ha.perf hst).symm.trans hu
      cases this
    obtain ⟨d, hd⟩ := h.placed ((ha.thread hst).running hu)
    exact ⟨d, (cpu_of_done ha.perf d).trans hd⟩

section

variable (h : Held S G)
include h

theorem holders {H : Fin nbuf → Option Slot} {I : Inum → Option Slot} {U : Slot → ℕ} {n : ℤ}
    (hb : Holding (fun u => (S.thread u).state.active = true) H
      (update (fun u => (G u).bufs) s g.bufs))
    (hi : Holding (fun u => (S.thread u).state.active = true) I
      (update (fun u => (G u).inodes) s g.inodes))
    (hu : Tally (fun u => (S.thread u).state.active = true) U
      (update (fun u => (G u).ops) s g.ops) n) :
    Held { S with bufHolder := H, inodeHolder := I, units := U, outstanding := n }
      (update G s g) := by
  refine ⟨?_, ?_, ?_, h.placed⟩
  · convert hb using 1
    exact comp_update Ctx.bufs G s g
  · convert hi using 1
    exact comp_update Ctx.inodes G s g
  · convert hu using 1
    exact comp_update Ctx.ops G s g

theorem bufs_of_eq (hg : g.bufs = (G s).bufs) :
    Holding (fun u => (S.thread u).state.active = true) S.bufHolder
      (update (fun u => (G u).bufs) s g.bufs) := by
  rw [hg, update_eq_self]
  exact h.bufs

theorem inodes_of_eq (hg : g.inodes = (G s).inodes) :
    Holding (fun u => (S.thread u).state.active = true) S.inodeHolder
      (update (fun u => (G u).inodes) s g.inodes) := by
  rw [hg, update_eq_self]
  exact h.inodes

theorem ops_of_eq (hg : g.ops = (G s).ops) :
    Tally (fun u => (S.thread u).state.active = true) S.units
      (update (fun u => (G u).ops) s g.ops) S.outstanding := by
  rw [hg, update_eq_self]
  exact h.ops

theorem of_done (ha : Answered S S' G c s ch e k r) :
    Held { S' with code := update S'.code s (k r) } (learn G s e r) := by
  have hperf := ha.perf
  refine answered ha ?_
  have hs := ha.active
  have hpre := ha.pre
  by_cases he : e.keepsHolds = true
  · have hh := (perform_frame hperf).holds he
    obtain ⟨hb, hin, ho⟩ := next_holds he r (G s)
    rw [hh.bufHolder, hh.inodeHolder, hh.outstanding, hh.units]
    exact h.holders (h.bufs_of_eq hb) (h.inodes_of_eq hin) (h.ops_of_eq ho)
  cases e with
  | bget =>
    simp only [perform] at hperf
    split at hperf
    · cases hperf
    · rename_i hnone
      cases hperf
      exact h.holders (h.bufs.take hs hnone) (h.inodes_of_eq rfl) (h.ops_of_eq rfl)
  | brelse b =>
    simp only [perform] at hperf
    split at hperf
    · cases hperf
    · cases hperf
      exact h.holders (h.bufs.give hs hpre) (h.inodes_of_eq rfl) (h.ops_of_eq rfl)
  | ilock ip =>
    simp only [perform] at hperf
    split at hperf
    · cases hperf
    · rename_i hnone
      cases hperf
      exact h.holders (h.bufs_of_eq rfl) (h.inodes.take hs hnone) (h.ops_of_eq rfl)
  | iunlock ip =>
    simp only [perform] at hperf
    split at hperf
    · cases hperf
    · cases hperf
      exact h.holders (h.bufs_of_eq rfl) (h.inodes.give hs hpre) (h.ops_of_eq rfl)
  | iputTest ip =>
    simp only [perform] at hperf
    split at hperf
    · cases hperf
      exact h.holders (h.bufs_of_eq rfl) (h.inodes_of_eq rfl) (h.ops_of_eq rfl)
    · cases hperf
    · rename_i hnone _
      cases hperf
      exact h.holders (h.bufs_of_eq rfl) (h.inodes.take hs hnone) (h.ops_of_eq rfl)
  | iputEnd ip freed =>
    simp only [perform] at hperf
    split at hperf
    · rename_i hfreed
      subst hfreed
      cases hperf
      exact h.holders (h.bufs_of_eq rfl) (h.inodes.give hs (hpre rfl)) (h.ops_of_eq rfl)
    · rename_i hfreed
      obtain rfl : freed = false := by simpa using hfreed
      cases hperf
      exact h.holders (h.bufs_of_eq rfl) (h.inodes_of_eq rfl) (h.ops_of_eq rfl)
  | beginOp =>
    simp only [perform] at hperf
    split at hperf
    · cases hperf
    · cases hperf
      exact h.holders (h.bufs_of_eq rfl) (h.inodes_of_eq rfl) (h.ops.take hs)
  | endOp =>
    simp only [perform] at hperf
    split at hperf
    · cases hperf
    · split at hperf <;> cases hperf <;>
        exact h.holders (h.bufs_of_eq rfl) (h.inodes_of_eq rfl) (h.ops.give hs hpre)
  | _ => exact absurd rfl he

theorem of_gone (hi : Inv S G) (hok : Careful S (.run c ch)) (hc : (S.cpu c).thread = some s)
    (hcode : S.code s = .vis e k) (hperf : S.perform c s ch e = some (.gone S')) : Held S' G := by
  have hs := hi.running_active hc
  have hsafe := hi.safe hs
  rw [hcode] at hsafe
  have hidle : (G s).Idle := by
    obtain rfl | rfl := gone_cases hperf
    · exact hsafe.1.1
    · exact hsafe.1.1
  refine h.change (gone_frame hperf).2 (fun _ _ _ => rfl)
    (fun u hu => .inl (active_of_gone hperf hu)) (fun u hu => ?_) fun {u} hu => ?_
  · by_cases hus : u = s
    · subst hus
      exact .inr ⟨hidle.bufs, hidle.inodes, hidle.ops⟩
    by_cases hend : e = .exitDone ∧ u.1 = s.1
    · -- a sibling of a thread at the end of `exit`
      obtain ⟨rfl, hu1⟩ := hend
      have hno := hok.2 s (nextOp_eq hc hcode) u hu1 hus
      simp only [Holds, not_or, not_exists, Nat.not_lt, Nat.le_zero] at hno
      exact .inr ⟨h.bufs.eq_zero hu hno.1, h.inodes.eq_zero hu hno.2.1,
        (h.ops.count hu).symm.trans hno.2.2⟩
    · refine .inl ((thread_of_gone hperf hus ?_).active_iff.mpr hu)
      exact (gone_cases hperf).imp_right fun he hu1 => hend ⟨he, hu1⟩
  · have hnot : ¬(u = s ∨ e = .exitDone ∧ u.1 = s.1) := by
      intro hend
      have := (ended_of_gone hperf hend).symm.trans hu
      cases this
    rw [not_or, not_and] at hnot
    have hkept := thread_of_gone hperf hnot.1 ((gone_cases hperf).imp_right hnot.2)
    obtain ⟨d, hd⟩ := h.placed (hkept.running hu)
    have hdc : d ≠ c := by
      rintro rfl
      exact hnot.1 (Option.some.inj (hd.symm.trans hc))
    exact ⟨d, by rw [cpu_of_gone hperf hdc]; exact hd⟩

theorem of_leave (hi : Inv S G) (hc : (S.cpu c).thread = some s) (hh : SameHolds S S')
    (hs : (S'.thread s).state.active = true) (hrun : (S'.thread s).state ≠ .running)
    (hthread : ∀ u, u ≠ s → (S'.thread u).state = (S.thread u).state)
    (hcpu : ∀ d, d ≠ c → S'.cpu d = S.cpu d) : Held S' G := by
  refine h.change hh (fun _ _ _ => rfl) (fun u hu => .inl ?_) (fun u hu => .inl ?_) fun {u} hu => ?_
  · by_cases hus : u = s
    · rw [hus]
      exact hi.running_active hc
    · rwa [hthread u hus] at hu
  · by_cases hus : u = s
    · rw [hus]
      exact hs
    · rwa [hthread u hus]
  · have hus : u ≠ s := by
      rintro rfl
      exact hrun hu
    obtain ⟨d, hd⟩ := h.placed ((hthread u hus).symm.trans hu)
    have hdc : d ≠ c := by
      rintro rfl
      exact hus (Option.some.inj (hd.symm.trans hc))
    exact ⟨d, by rw [hcpu d hdc]; exact hd⟩

theorem of_schedule (hc : (S.cpu c).thread = none) (hrun : S.canRun c s = true) :
    Held (S.dispatch c s) G := by
  have hs := runnable_of_canRun hrun
  refine h.change ⟨rfl, rfl, rfl, rfl⟩ (fun _ _ _ => rfl) (fun u hu => .inl ?_)
    (fun u hu => .inl ?_) fun {u} hu => ?_
  · by_cases hus : u = s
    · simp [hus, hs]
    · simpa [dispatch, hus] using hu
  · by_cases hus : u = s
    · simp [dispatch, hus]
    · simpa [dispatch, hus] using hu
  · by_cases hus : u = s
    · exact ⟨c, by simp [dispatch, hus]⟩
    · obtain ⟨d, hd⟩ := h.placed (s := u) (by simpa [dispatch, hus] using hu)
      have hdc : d ≠ c := by
        rintro rfl
        rw [hc] at hd
        cases hd
      exact ⟨d, by simpa [dispatch, hdc] using hd⟩

theorem step {G' : Slot → Ctx} {a : Act ncpu} (hi : Inv S G) (hok : Careful S a)
    (hm : Moves S G a S' G') : Held S' G' := by
  cases hm with
  | schedule hc hrun => exact h.of_schedule hc hrun
  | done hc hcode hperf => exact h.of_done ⟨hi, hc, hcode, hperf, hok.1.hasOthers hc hcode⟩
  | sleep hc hcode hperf =>
    exact h.of_leave hi hc ⟨rfl, rfl, rfl, rfl⟩ (by simp [sleepOn, Kernel.leave])
      (by simp [sleepOn, Kernel.leave]) (fun u hu => by simp [sleepOn, Kernel.leave, hu])
      fun d hd => by simp [sleepOn, Kernel.leave, hd]
  | gone hc hcode hperf => exact h.of_gone hi hok hc hcode hperf
  | enter hc hcode =>
    rename_i c s t
    have hstart := hi.start_of_code hc hcode
    rw [← hstart, update_eq_self]
    refine ⟨h.bufs, h.inodes, h.ops, fun hu => ?_⟩
    obtain ⟨d, hd⟩ := h.placed hu
    refine ⟨d, ?_⟩
    by_cases hdc : d = c
    · subst hdc
      simpa using hd
    · simpa [hdc] using hd
  | tick hc hcode hs =>
    exact h.of_leave hi hc ⟨rfl, rfl, rfl, rfl⟩ (by simp [yield, Kernel.leave])
      (by simp [yield, Kernel.leave]) (fun u hu => by simp [yield, Kernel.leave, hu])
      fun d hd => by simp [yield, Kernel.leave, hd]
  | intr =>
    rename_i chan
    have hk : ∀ u, Kept S (S.wakeup1 chan) u := .of_quiet (quiet_wakeup1 S chan)
    exact h.change ⟨rfl, rfl, rfl, rfl⟩ (fun _ _ _ => rfl)
      (fun u hu => .inl ((hk u).active_iff.mp hu)) (fun u hu => .inl ((hk u).active_iff.mpr hu))
      fun {u} hu => h.placed ((hk u).running hu)

end

theorem of_booted (h : Booted S) : Held S fun _ => .start := by
  obtain ⟨k, d, avail, -, -, -, rfl⟩ := h
  refine ⟨⟨nofun, fun _ _ => rfl⟩, ⟨nofun, fun _ _ => rfl⟩,
    ⟨fun hu => absurd hu (lt_irrefl 0), fun _ => rfl, by simp [boot]⟩, fun {u} hu => ?_⟩
  by_cases hu0 : u = (0, 0)
  · subst hu0
    cases hu
  · simp [boot, hu0, KThread.empty] at hu

end Held

theorem held_of_reach (h : Reach step Careful Booted S) : ∃ G, Inv S G ∧ Held S G := by
  refine Reach.invariant (I := fun S => ∃ G, Inv S G ∧ Held S G)
    (fun S hS => ⟨_, .of_booted hS, .of_booted hS⟩) ?_ h
  rintro S a S' ⟨G, hi, hh⟩ hok hs
  obtain ⟨G', hm⟩ := Moves.of_step G hs
  exact ⟨G', hi.step hok.1 hm, hh.step hi hok hm⟩

/-! ## Letting go -/

theorem not_ends {e : KOp} {g : Ctx} (hpre : e.pre g) (hg : ¬g.Idle) : ¬e.ends := by
  rintro (rfl | rfl)
  · exact hg hpre.1
  · exact hg hpre.1

theorem must_brelse {p : KProg Unit} {g : Ctx} (hp : Finishes p g) {b : Fin nbuf}
    (hb : b ∈ g.bufs) : p.Must (· = .brelse b) KOp.ends := by
  refine Prog.Safe.must (O := fun g => b ∈ g.bufs) (fun e g hpre hg hne => ?_) ?_ hp hb
  · refine ⟨not_ends hpre fun hidle => by simp [hidle.bufs] at hg, fun r => ?_⟩
    cases e with
    | brelse b' =>
      have hbb : b ≠ b' := fun he => hne (by rw [he])
      exact (Multiset.mem_erase_of_ne hbb).mpr hg
    | bget => exact Multiset.mem_cons_of_mem hg
    | iputTest | ofile => cases r <;> exact hg
    | iputEnd _ x | setOfile _ x | setCwd x => cases x <;> exact hg
    | _ => exact hg
  · rintro _ g rfl
    simp [Ctx.start]

theorem must_iunlock {p : KProg Unit} {g : Ctx} (hp : Finishes p g) {ip : Inum}
    (hip : ip ∈ g.inodes) :
    p.Must (fun e => e = .iunlock ip ∨ e = .iputEnd ip true) KOp.ends := by
  refine Prog.Safe.must (O := fun g => ip ∈ g.inodes) (fun e g hpre hg hne => ?_) ?_ hp hip
  · refine ⟨not_ends hpre fun hidle => by simp [hidle.inodes] at hg, fun r => ?_⟩
    cases e with
    | iunlock jp =>
      have hij : ip ≠ jp := fun he => hne (.inl (by rw [he]))
      exact (Multiset.mem_erase_of_ne hij).mpr hg
    | ilock jp => exact Multiset.mem_cons_of_mem hg
    | iputTest jp =>
      cases r with
      | false => exact hg
      | true => exact Multiset.mem_cons_of_mem hg
    | iputEnd jp freed =>
      cases freed with
      | false => exact hg
      | true =>
        have hij : ip ≠ jp := fun he => hne (.inr (by rw [he]))
        exact (Multiset.mem_erase_of_ne hij).mpr hg
    | ofile => cases r <;> exact hg
    | setOfile _ x | setCwd x => cases x <;> exact hg
    | _ => exact hg
  · rintro _ g rfl
    simp [Ctx.start]

theorem must_endOp {p : KProg Unit} {g : Ctx} (hp : Finishes p g) (hops : 0 < g.ops) :
    p.Must (· = .endOp) KOp.ends := by
  refine Prog.Safe.must (O := fun g => 0 < g.ops) (fun e g hpre hg hne => ?_) ?_ hp hops
  · refine ⟨not_ends hpre fun hidle => by simp [hidle.ops] at hg, fun r => ?_⟩
    cases e with
    | endOp => exact absurd rfl hne
    | beginOp => exact Nat.lt_succ_of_lt hg
    | iputTest | ofile => cases r <;> exact hg
    | iputEnd _ x | setOfile _ x | setCwd x => cases x <;> exact hg
    | _ => exact hg
  · rintro _ g rfl
    simp [Ctx.start]

theorem Held.bound (h : Held S G) (hi : Inv S G) {P : KOp → Prop}
    (hs : (S.thread s).state.active = true) (hcode : (S.code s).Must P KOp.ends) : Bound S s P := by
  have hready := hi.ready (RunState.live_of_active hs)
  refine ⟨?_, ⟨hready, hi.row (Entry.live_of_isReady hready)⟩, hcode⟩
  cases hst : (S.thread s).state with
  | runnable => exact .inl rfl
  | sleeping => exact .inr (.inl rfl)
  | running => exact .inr (.inr ⟨rfl, h.placed hst⟩)
  | unused | embryo | zombie => simp [hst] at hs

/-- **Nothing is orphaned.**  In every state that careful steps reach, each busy buffer,
each busy inode and each unit of `log.outstanding` belongs to a thread that is not a zombie,
can still run, and is bound to let go of it. -/
theorem held_by_somebody (h : Reach step Careful Booted S) :
    (∀ b s, S.bufHolder b = some s → Bound S s (· = .brelse b)) ∧
    (∀ ip s, S.inodeHolder ip = some s →
      Bound S s fun e => e = .iunlock ip ∨ e = .iputEnd ip true) ∧
    S.outstanding = (∑ s, S.units s : ℕ) ∧ ∀ s, 0 < S.units s → Bound S s (· = .endOp) := by
  obtain ⟨G, hi, hh⟩ := held_of_reach h
  refine ⟨fun b s hb => ?_, fun ip s hip => ?_, hh.ops.total, fun s hu => ?_⟩
  · have hs := hh.bufs.holder hb
    exact hh.bound hi hs (must_brelse (hi.safe hs) (hh.bufs.mem hb))
  · have hs := hh.inodes.holder hip
    exact hh.bound hi hs (must_iunlock (hi.safe hs) (hh.inodes.mem hip))
  · have hs := hh.ops.holder hu
    exact hh.bound hi hs (must_endOp (hi.safe hs) (hh.ops.count hs ▸ hu))

/-- The step is not the end of `exit`. -/
def Kernel.notExit (S : Kernel ncpu) : Act ncpu → Bool
  | .run c _ =>
    match S.nextOp c with
    | some (_, .exitDone) => false
    | _ => true
  | _ => true

theorem careful_of_notExit {a : Act ncpu} (hok : Orderly S a) (hne : S.notExit a = true) :
    Careful S a := by
  refine ⟨hok, ?_⟩
  cases a with
  | run c ch =>
    intro s hnext
    simp [notExit, hnext] at hne
  | _ => trivial

/-- The child has begun a log operation. -/
def childBeginsOp : List (Act 2) := childRuns ++ calls cpu1 (.unlink (some [])) 3

set_option maxRecDepth 10000 in
/-- A child in a file-system call is bound to end the operation that it has begun. -/
theorem held_by_somebody_childBeginsOp :
    ∃ S : Kernel 2, Reach step Careful Booted S ∧ 0 < S.units (1, 0) ∧
      Bound S (1, 0) (· = .endOp) := by
  have hm : Meets step (fun S a => Orderly S a ∧ S.notExit a = true) booted childBeginsOp := by
    decide +kernel
  have he : endsIn step booted childBeginsOp (fun S => decide (0 < S.units (1, 0))) = true := by
    decide +kernel
  obtain ⟨S, hS, hu⟩ := Reach.of_endsIn booted_booted he hm
  have hS' : Reach step Careful Booted S := hS.weaken fun _ _ h => careful_of_notExit h.1 h.2
  have hu' : 0 < S.units (1, 0) := by simpa using hu
  exact ⟨S, hS', hu', (held_by_somebody hS').2.2.2 (1, 0) hu'⟩

/-- The child has two threads.  The second has begun a log operation and is interrupted;
the first calls `exit`. -/
def siblingExits : List (Act 2) :=
  childRuns ++ calls cpu1 (.kthreadCreate 4096) 6 ++ calls cpu0 .wait 3 ++ [.schedule cpu0 (1, 1), go cpu0] ++
    calls cpu0 (.unlink (some [])) 3 ++ [.tick cpu0 0] ++ calls cpu1 .exit 26

set_option maxRecDepth 10000 in
/-- The log operation of the second thread is outstanding, and the thread is a zombie. -/
theorem exit_orphans_log :
    ∃ S : Kernel 2, Reach step anyStep Booted S ∧ (S.outstanding == 1 && S.units (1, 1) == 1 &&
      (S.thread (1, 1)).state == .zombie) = true := by
  have he : endsIn step booted siblingExits (fun S => S.outstanding == 1 && S.units (1, 1) == 1 &&
      (S.thread (1, 1)).state == .zombie) = true := by decide +kernel
  exact Reach.of_endsIn booted_booted he

end Xv6.Proc
