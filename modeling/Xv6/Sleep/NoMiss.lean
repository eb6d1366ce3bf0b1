import Xv6.Sleep.Rules

/-!
# No wakeup is missed

A waiter that has seen the condition false takes `ptable.lock` before it lets go of `lk`, and
keeps it until its processor is in the scheduler.  A waker makes the condition true while it
has `lk`, and takes `ptable.lock` afterwards.  So between the waiter's last look at the
condition and its sleep no waker can have gone through `wakeup1`: one that has come in between
is still waiting for `ptable.lock`.

`Inv` relates what is known of the threads (`Ctx`) to the state.  Its last four fields are
the argument above: whoever has seen the condition false has `lk` and it is false; whoever
has let go of `lk` since has `ptable.lock`, and if the condition has become true there is a
waker that has not got it.
-/

namespace Xv6.Sleep

open Transition
open Function (update update_comm update_eq_self update_of_ne update_self)
open Proc (RunState PId TId Slot Chan)

/-! ## The invariant -/

variable {ncpu : ℕ} {S S' : Sys ncpu} {G : Slot → Ctx} {H : Fin ncpu → Grip Lock} {c d : Fin ncpu}
  {u v w : Slot} {ready : PId → Bool} {chan : Chan}

/-- What a processor has of the locks: it is its thread that has them, or its scheduler. -/
def act (S : Sys ncpu) (G : Slot → Ctx) (H : Fin ncpu → Grip Lock) (c : Fin ncpu) : Grip Lock :=
  match (S.cpu c).thread with
  | some u => (G u).grip
  | none => H c

theorem act_thread (hc : (S.cpu c).thread = some u) : act S G H c = (G u).grip := by
  rw [act, hc]

theorem act_sched (hc : (S.cpu c).thread = none) : act S G H c = H c := by
  rw [act, hc]

/-- The thread exists. -/
abbrev Sys.used (S : Sys ncpu) (u : Slot) : Prop := (S.thread u).state ≠ .unused

/-- The waker has not come to `ptable.lock` yet. -/
structure Armed (S : Sys ncpu) (G : Slot → Ctx) (w : Slot) : Prop where
  used : S.used w
  know : (G w).know = .armed
  ptable : (G w).ptable = .out

/-- **The invariant.** -/
structure Inv (ready : PId → Bool) (chan : Chan) (S : Sys ncpu) (G : Slot → Ctx)
    (H : Fin ncpu → Grip Lock) : Prop where
  agrees : S.locks.Agrees (act S G H)
  safe : ∀ {u}, S.used u → Safe chan (S.thread u).code (G u)
  /-- A thread that can be interrupted has nothing. -/
  start : ∀ {u}, S.used u → (G u).ncli = 0 → G u = .start
  ssafe : ∀ c, SSafe (S.cpu c).code (H c)
  /-- While a thread runs, the scheduler is inside its loop. -/
  parked : ∀ {c u}, (S.cpu c).thread = some u → H c = .only .ptable
  one : ∀ {c d u}, (S.cpu c).thread = some u → (S.cpu d).thread = some u → c = d
  resting : ∀ {u}, S.used u → (∀ c, (S.cpu c).thread ≠ some u) →
    G u = .rest ∧ (S.thread u).state ≠ .running
  running : ∀ {c u}, (S.cpu c).thread = some u → S.used u ∧
    ((S.thread u).state ≠ .running ↔ (G u).off = true)
  off : ∀ {u}, S.used u → (G u).off = true → (G u).ptable = .held ∧ (G u).know = .idle
  ready : ∀ {u}, S.used u → ready u.1 = true
  saw : ∀ {u}, S.used u → (G u).know = .saw → (G u).lk ≠ .out ∧ S.cond = false
  promised : ∀ {u}, S.used u → (G u).know = .promised →
    (G u).ptable = .held ∧ (S.cond = true → ∃ w, Armed S G w)
  armed : ∀ {u}, Armed S G u → pending (S.thread u).code = slots
  sleeping : ∀ {u}, (S.thread u).state = .sleeping → (S.thread u).chan = chan → S.cond = true →
    ∃ w, S.used w ∧ (G w).know = .armed ∧ u ∈ pending (S.thread w).code

namespace Inv

section

variable (h : Inv ready chan S G H)
include h

theorem on (hu : S.used u) (hg : G u ≠ .rest) : ∃ c, (S.cpu c).thread = some u := by
  by_contra hno
  exact hg (h.resting hu fun c hc => hno ⟨c, hc⟩).1

theorem state_running (hc : (S.cpu c).thread = some u) (hoff : (G u).off = false) :
    (S.thread u).state = .running := by
  by_contra hne
  rw [(h.running hc).2.mp hne] at hoff
  cases hoff

theorem safe_code (hc : (S.cpu c).thread = some u) {i : Ins} {is : List Ins}
    (hcode : (S.thread u).code = i :: is) : Safe chan (i :: is) (G u) :=
  hcode ▸ h.safe (h.running hc).1

theorem excl (hc : (S.cpu c).thread = some u) (hd : (S.cpu d).thread = some v) {l : Lock}
    (hu : (G u).grip.stage l ≠ .out) (hv : (G v).grip.stage l ≠ .out) : u = v := by
  have hcd : c = d := by
    refine h.agrees.excl (l := l) ?_ ?_
    · rwa [act_thread hc]
    · rwa [act_thread hd]
  subst hcd
  exact Option.some.inj (hc.symm.trans hd)

theorem act_update (hc : (S.cpu c).thread = some u) (hcpu : S'.cpu = S.cpu) (g : Ctx) :
    act S' (update G u g) H = update (act S G H) c g.grip := by
  funext d
  by_cases hd : d = c
  · subst hd
    rw [update_self, act_thread (u := u) (by rw [hcpu, hc]), update_self]
  · rw [update_of_ne hd, act, act, hcpu]
    cases hv : (S.cpu d).thread with
    | none => rfl
    | some v =>
      have hvu : v ≠ u := by
        rintro rfl
        exact hd (h.one hv hc)
      simp [hvu]

theorem advance (hc : (S.cpu c).thread = some u) {t : Thread} {g : Ctx} (hcpu : S'.cpu = S.cpu)
    (hth : S'.thread = update S.thread u t) (hcond : S'.cond = S.cond)
    (hagrees : S'.locks.Agrees (update (act S G H) c g.grip)) (ht : t.state ≠ .unused)
    (hsafe : Safe chan t.code g) (hstart : g.ncli = 0 → g = .start)
    (hrun : t.state ≠ .running ↔ g.off = true)
    (hoff : g.off = true → g.ptable = .held ∧ g.know = .idle)
    (hsaw : g.know = .saw → g.lk ≠ .out ∧ S.cond = false)
    (hprom : g.know = .promised → g.ptable = .held ∧ (S.cond = true → ∃ w, Armed S G w))
    (harmed : g.know = .armed → g.ptable = .out → pending t.code = slots)
    (hsleep : t.state = .sleeping → t.chan = chan → S.cond = true → ∃ w, Armed S G w)
    (hkeep : Armed S G u → g.know = .armed)
    (hpass : (G u).know = .armed → ∀ v ∈ pending (S.thread u).code, (S.thread v).state = .sleeping →
      (S.thread v).chan = chan → g.know = .armed ∧ v ∈ pending t.code)
    (hlet : Armed S G u → g.ptable ≠ .out → g.know ≠ .promised ∧ t.state ≠ .sleeping ∧
      ∀ v, v ≠ u → S.used v → (G v).know ≠ .promised) :
    Inv ready chan S' (update G u g) H := by
  have hself : S'.thread u = t := by rw [hth, update_self]
  have hother : ∀ {v}, v ≠ u → S'.thread v = S.thread v := by
    intro v hv
    rw [hth, update_of_ne hv]
  have hused : ∀ {v}, S'.used v → v ≠ u → S.used v := by
    intro v hv hvu
    rwa [Sys.used, hother hvu] at hv
  have hu := (h.running hc).1
  -- a waker before `ptable.lock` stays one, unless it is `u` and takes the lock
  have hwaker : ∀ {v}, (v ≠ u → S.used v ∧ (G v).know = .promised) →
      (v = u → g.know = .promised ∨ t.state = .sleeping) → (∃ w, Armed S G w) →
      ∃ w, Armed S' (update G u g) w := by
    rintro v hv hvu ⟨w, hw⟩
    refine ⟨w, ?_⟩
    by_cases hwu : w = u
    · subst hwu
      have hout : g.ptable = .out := by
        by_contra hne
        obtain ⟨hk, hs, hv'⟩ := hlet hw hne
        by_cases hvw : v = w
        · exact (hvu hvw).elim hk hs
        · exact hv' v hvw (hv hvw).1 (hv hvw).2
      exact ⟨by rwa [Sys.used, hself], by simpa using hkeep hw, by simpa using hout⟩
    · exact ⟨by rw [Sys.used, hother hwu]; exact hw.used, by simpa [hwu] using hw.know,
        by simpa [hwu] using hw.ptable⟩
  refine ⟨by rw [h.act_update hc hcpu]; exact hagrees, fun {v} hv => ?_, fun {v} hv => ?_,
    fun d => by rw [hcpu]; exact h.ssafe d, fun hd => h.parked (by rwa [hcpu] at hd), fun hd he => ?_,
    fun {v} hv hno => ?_, fun {d v} hd => ?_, fun {v} hv => ?_, fun {v} hv => ?_, fun {v} hv => ?_,
    fun {v} hv => ?_, fun {v} hv => ?_, fun {v} hs hch hC => ?_⟩
  · by_cases hvu : v = u
    · subst hvu
      simpa [hself] using hsafe
    · simpa [hvu, hother hvu] using h.safe (hused hv hvu)
  · by_cases hvu : v = u
    · subst hvu
      simpa using hstart
    · simpa [hvu] using h.start (hused hv hvu)
  · rw [hcpu] at hd he
    exact h.one hd he
  · have hvu : v ≠ u := by
      rintro rfl
      exact hno c (by rw [hcpu, hc])
    rw [hother hvu, update_of_ne hvu]
    exact h.resting (hused hv hvu) fun d => by rw [← hcpu]; exact hno d
  · rw [hcpu] at hd
    by_cases hvu : v = u
    · subst hvu
      rw [Sys.used, hself, update_self]
      exact ⟨ht, hrun⟩
    · rw [Sys.used, hother hvu, update_of_ne hvu]
      exact h.running hd
  · by_cases hvu : v = u
    · subst hvu
      simpa using hoff
    · simpa [hvu] using h.off (hused hv hvu)
  · by_cases hvu : v = u
    · rw [hvu]
      exact h.ready hu
    · exact h.ready (hused hv hvu)
  · by_cases hvu : v = u
    · subst hvu
      simpa [hcond] using hsaw
    · simpa [hvu, hcond] using h.saw (hused hv hvu)
  · intro hk
    rw [hcond]
    by_cases hvu : v = u
    · subst hvu
      rw [update_self] at hk ⊢
      exact ⟨(hprom hk).1, fun hC => hwaker (fun hne => absurd rfl hne) (fun _ => .inl hk)
        ((hprom hk).2 hC)⟩
    · rw [update_of_ne hvu] at hk ⊢
      obtain ⟨hheld, hex⟩ := h.promised (hused hv hvu) hk
      exact ⟨hheld, fun hC => hwaker (fun _ => ⟨hused hv hvu, hk⟩) (fun he => absurd he hvu) (hex hC)⟩
  · by_cases hvu : v = u
    · subst hvu
      rw [hself]
      exact harmed (by simpa using hv.know) (by simpa using hv.ptable)
    · rw [hother hvu]
      exact h.armed ⟨hused hv.used hvu, by simpa [hvu] using hv.know, by simpa [hvu] using hv.ptable⟩
  · rw [hcond] at hC
    by_cases hvu : v = u
    · subst hvu
      rw [hself] at hs hch
      obtain ⟨w, hw⟩ := hwaker (v := v) (fun hne => absurd rfl hne) (fun _ => .inr hs) (hsleep hs hch hC)
      have hp : pending (S'.thread w).code = slots := by
        by_cases hwv : w = v
        · subst hwv
          rw [hself]
          exact harmed (by simpa using hw.know) (by simpa using hw.ptable)
        · rw [hother hwv]
          exact h.armed ⟨hused hw.used hwv, by simpa [hwv] using hw.know, by simpa [hwv] using hw.ptable⟩
      exact ⟨w, hw.used, hw.know, hp ▸ mem_slots v⟩
    · rw [hother hvu] at hs hch
      obtain ⟨w, hw, hk, hmem⟩ := h.sleeping hs hch hC
      refine ⟨w, ?_⟩
      by_cases hwu : w = u
      · subst hwu
        obtain ⟨hk', hp⟩ := hpass hk v hmem hs hch
        exact ⟨by rwa [Sys.used, hself], by simpa using hk', by rwa [hself]⟩
      · exact ⟨by rwa [Sys.used, hother hwu], by simpa [hwu] using hk, by rwa [hother hwu]⟩

end

end Inv

/-! ## Instructions -/

/-- The machine has to wait, or goes on in order. -/
def Goes (ready : PId → Bool) (chan : Chan) (r : Option (Except Panic (Sys ncpu))) : Prop :=
  r = none ∨ ∃ S' G H, r = some (.ok S') ∧ Inv ready chan S' G H

namespace Inv

variable {is : List Ins}

section

variable (h : Inv ready chan S G H)
include h

theorem agrees_self (hc : (S.cpu c).thread = some u) :
    S.locks.Agrees (update (act S G H) c (G u).grip) := by
  rw [← act_thread (H := H) hc, update_eq_self]
  exact h.agrees

theorem exec_lock (hc : (S.cpu c).thread = some u) {e : LockOp Lock}
    (hcode : (S.thread u).code = .lock e :: is) :
    Goes ready chan (S.exec ready chan c u (.lock e) is) := by
  obtain ⟨hu, hrun⟩ := h.running hc
  obtain ⟨⟨hpre, hoff, hunlock, hpt, hpop⟩, -, hrest⟩ := h.safe_code hc hcode
  have hpre' : e.pre (act S G H c) := by rwa [act_thread hc]
  obtain ⟨l, d, -, hnone, -⟩ | ⟨K, hK, hagrees⟩ := h.agrees.run hpre'
  · exact .inl (by simp [Sys.exec, hnone])
  have hstate := h.state_running hc hoff
  refine .inr ⟨{ S.setThread u { S.thread u with code := is } with locks := K },
    update G u ((Ins.lock e).next (G u)), H, by simp only [Sys.exec, hK], ?_⟩
  refine h.advance hc (t := { S.thread u with code := is }) (g := (Ins.lock e).next (G u)) rfl rfl rfl
    ?_ hu hrest (fun hn => ?_) (by simpa using hrun) (fun ho => ?_) (fun hk => ?_) (fun hk => ?_)
    (fun hk hp => ?_) (fun hs _ _ => ?_) (fun hw => by simp [hw.know]) (fun hk v hv _ _ => ?_)
    fun hw hp => ?_
  · rw [act_thread hc] at hagrees
    rw [show ((Ins.lock e).next (G u)).grip = e.next (G u).grip from e.grip_after (G u)]
    exact hagrees
  · have heq := LockOp.eq_start hpre (h.start hu) hpop hoff hn
    have hk : (G u).know = .idle := by rw [← e.after_know, heq]; rfl
    simp [Ins.next, heq, hk, Ctx.start]
  · simp [hoff] at ho
  · dsimp only [Ins.next] at hk ⊢
    split_ifs at hk with hif
    have hne : e ≠ .unlock .lk := fun he => hif ⟨he, hk⟩
    exact ⟨LockOp.lk_ne_out hne (h.saw hu hk).1, (h.saw hu hk).2⟩
  · dsimp only [Ins.next] at hk ⊢
    split_ifs at hk with hif
    · obtain ⟨rfl, hsaw⟩ := hif
      refine ⟨hunlock rfl hsaw, fun hC => ?_⟩
      rw [(h.saw hu hsaw).2] at hC
      cases hC
    · have hne : e ≠ .unmark .ptable := by
        rintro rfl
        cases hk.symm.trans (hpt (.inl rfl))
      exact ⟨LockOp.ptable_held hpre hne (h.promised hu hk).1, (h.promised hu hk).2⟩
  · dsimp only [Ins.next] at hk hp
    split_ifs at hk
    have hne : e ≠ .unlock .ptable := by
      rintro rfl
      cases hk.symm.trans (hpt (.inr rfl))
    have := h.armed ⟨hu, hk, LockOp.ptable_eq_out hne hp⟩
    rwa [hcode] at this
  · cases hstate.symm.trans hs
  · rw [hcode] at hv
    exact ⟨by simp [hk], hv⟩
  · refine ⟨by simp [hw.know], by simp [hstate], fun v _ hv hk => ?_⟩
    obtain rfl := LockOp.eq_xchg hw.ptable hp hpre
    -- whoever is about to sleep has the lock that has been taken just now
    have hheld := (h.promised hv hk).1
    obtain ⟨d, hd⟩ := h.on hv (by rintro hr; rw [hr] at hk; cases hk)
    have hlocked : (S.locks.lock .ptable).locked = true := by
      refine (h.agrees.locked _).mpr ⟨d, ?_⟩
      rw [act_thread hd, Ctx.grip_ptable, hheld]
      simp
    simp [Locks.run, hlocked] at hK

theorem armed_of_sleeping (hc : (S.cpu c).thread = some u) (hoff : (G u).off = true)
    (hs : (S.thread u).state = .sleeping) (hch : (S.thread u).chan = chan) (hC : S.cond = true) :
    ∃ w, Armed S G w := by
  obtain ⟨w, hw, hk, -⟩ := h.sleeping hs hch hC
  obtain ⟨hheld, hidle⟩ := h.off (h.running hc).1 hoff
  refine ⟨w, hw, hk, ?_⟩
  by_contra hne
  obtain ⟨d, hd⟩ := h.on hw (by rintro hr; rw [hr] at hk; cases hk)
  obtain rfl := h.excl (l := .ptable) hc hd (by simp [hheld]) hne
  cases hidle.symm.trans hk

theorem exec_own (hc : (S.cpu c).thread = some u) {t : Thread} {i : Ins}
    (hcode : (S.thread u).code = i :: is) (hcpu : S'.cpu = S.cpu)
    (hth : S'.thread = update S.thread u t) (hcond : S'.cond = S.cond)
    (hagrees : S'.locks.Agrees (update (act S G H) c (G u).grip))
    (hp : pending (i :: is) = pending is) (hcode' : t.code = is)
    (hstate : t.state = (S.thread u).state) (hchan : (G u).off = true → t.chan = (S.thread u).chan)
    (hnext : i.next (G u) = G u) : Inv ready chan S' G H := by
  obtain ⟨hu, hrun⟩ := h.running hc
  have hsafe := h.safe_code hc hcode
  have hrest := hsafe.2.2
  rw [hnext] at hrest
  rw [← update_eq_self u G]
  refine h.advance hc hcpu hth hcond hagrees (by rw [hstate]; exact hu) (by rw [hcode']; exact hrest)
    (h.start hu) (by rw [hstate]; exact hrun) (h.off hu) (h.saw hu) (h.promised hu) (fun hk hpt => ?_)
    (fun hs hch hC => ?_) (fun hw => hw.know) (fun hk v hv _ _ => ?_)
    (fun hw hne => absurd hw.ptable hne)
  · rw [hcode', ← hp, ← hcode]
    exact h.armed ⟨hu, hk, hpt⟩
  · rw [hstate] at hs
    have hoff := hrun.mp (by simp [hs])
    rw [hchan hoff] at hch
    exact h.armed_of_sleeping hc hoff hs hch hC
  · rw [hcode', ← hp, ← hcode]
    exact ⟨hk, hv⟩

theorem exec_loop (hc : (S.cpu c).thread = some u) (hcode : (S.thread u).code = .loop :: is) :
    Goes ready chan (S.exec ready chan c u .loop is) := by
  obtain ⟨hu, hrun⟩ := h.running hc
  have hsafe := h.safe_code hc hcode
  have hg : G u = .testing := hsafe.1
  have hagrees := h.agrees_self hc
  have hstate := h.state_running hc (by rw [hg]; rfl)
  cases hC : S.cond with
  | true =>
    exact .inr ⟨_, G, H, if_pos hC, h.exec_own hc hcode rfl rfl rfl hagrees rfl rfl rfl
      (fun _ => rfl) rfl⟩
  | false =>
    refine .inr ⟨_, update G u { Ctx.testing with know := .saw }, H, if_neg (by simp [hC]), ?_⟩
    have hna : (G u).know ≠ .armed := by simp [hg, Ctx.testing]
    rw [hg] at hagrees hsafe
    refine h.advance hc rfl rfl rfl hagrees hu (safe_sleep chan hsafe) (by simp [Ctx.testing])
      (by simp [hstate, Ctx.testing]) (by simp [Ctx.testing]) (fun _ => ⟨by simp [Ctx.testing], hC⟩)
      (by simp) (by simp) (by simp [hC]) (fun hw => absurd hw.know hna) (fun hk => absurd hk hna)
      fun hw => absurd hw.know hna

theorem setCond {b : Bool} (hb : b = true → (∀ v, S.used v → (G v).know ≠ .saw) ∧ ∃ w, Armed S G w) :
    Inv ready chan { S with cond := b } G H where
  agrees := h.agrees
  safe := h.safe
  start := h.start
  ssafe := h.ssafe
  parked := h.parked
  one := h.one
  resting := h.resting
  running := h.running
  off := h.off
  ready := h.ready
  saw {v} hv hk := by
    refine ⟨(h.saw hv hk).1, ?_⟩
    cases hbv : b with
    | false => rfl
    | true => exact absurd hk ((hb hbv).1 v hv)
  promised hv hk := by
    refine ⟨(h.promised hv hk).1, fun hC => ?_⟩
    obtain ⟨w, hw⟩ := (hb hC).2
    exact ⟨w, hw.used, hw.know, hw.ptable⟩
  armed hw := h.armed ⟨hw.used, hw.know, hw.ptable⟩
  sleeping {v} _ _ hC := by
    obtain ⟨w, hw⟩ := (hb hC).2
    exact ⟨w, hw.used, hw.know, by rw [h.armed hw]; exact mem_slots v⟩

theorem exec_setC (hc : (S.cpu c).thread = some u) {b : Bool}
    (hcode : (S.thread u).code = .setC b :: is) :
    Goes ready chan (S.exec ready chan c u (.setC b) is) := by
  obtain ⟨hu, hrun⟩ := h.running hc
  obtain ⟨hg, hp, hrest⟩ := h.safe_code hc hcode
  have hg : G u = .testing := hg
  have hstate := h.state_running hc (by rw [hg]; rfl)
  have hna : (G u).know ≠ .armed := by simp [hg, Ctx.testing]
  have hagrees := h.agrees_self hc
  rw [hg] at hagrees hrest
  -- first the waker is armed, then the condition changes
  have hadv : Inv ready chan (S.setThread u { S.thread u with code := is })
      (update G u ((Ins.setC b).next .testing)) H := by
    refine h.advance hc rfl rfl rfl hagrees hu hrest (by simp [Ctx.testing])
      (by simp [hstate, Ctx.testing]) (by simp [Ctx.testing]) (fun hk => ?_) (fun hk => ?_)
      (fun hk _ => hp ?_) (by simp [hstate]) (fun hw => absurd hw.know hna) (fun hk => absurd hk hna)
      fun hw => absurd hw.know hna
    · cases b <;> simp at hk
    · cases b <;> simp at hk
    · cases b
      · simp at hk
      · rfl
  refine .inr ⟨_, _, _, rfl, hadv.setCond fun hb => ?_⟩
  subst hb
  refine ⟨fun v hv hk => ?_, u, by simpa [Sys.setThread] using hu, by simp, by simp [Ctx.testing]⟩
  -- the lock is with this thread
  have hlk := (hadv.saw hv hk).1
  obtain ⟨d, hd⟩ := hadv.on hv (by rintro hr; rw [hr] at hk; cases hk)
  have hc' : ((S.setThread u { S.thread u with code := is }).cpu c).thread = some u := hc
  obtain rfl := hadv.excl (l := .lk) hc' hd (by simp [Ctx.testing]) hlk
  simp at hk

theorem exec_setState (hc : (S.cpu c).thread = some u) {st : RunState}
    (hcode : (S.thread u).code = .setState st :: is) :
    Goes ready chan (S.exec ready chan c u (.setState st) is) := by
  obtain ⟨hu, hrun⟩ := h.running hc
  obtain ⟨⟨hoff, hheld, hst⟩, -, hrest⟩ := h.safe_code hc hcode
  have hknow : (G u).know ≠ .armed := by
    obtain ⟨-, hk⟩ | ⟨-, hk⟩ := hst <;> simp [hk]
  refine .inr ⟨_, update G u ((Ins.setState st).next (G u)), H, rfl, ?_⟩
  refine h.advance hc rfl rfl rfl (h.agrees_self hc) ?_ hrest (fun hn => ?_) ?_ (fun _ => ⟨hheld, rfl⟩)
    (by simp) (by simp) (by simp) (fun hs _ hC => ?_) (fun hw => absurd hw.know hknow)
    (fun hk => absurd hk hknow) fun hw => absurd hw.know hknow
  · obtain ⟨rfl, -⟩ | ⟨rfl, -⟩ := hst <;> simp
  · have := h.start hu hn
    simp [this, Ctx.start] at hheld
  · obtain ⟨rfl, -⟩ | ⟨rfl, -⟩ := hst <;> simp
  · obtain ⟨rfl, -⟩ | ⟨rfl, hk⟩ := hst
    · cases hs
    · exact (h.promised hu hk).2 hC

theorem exec_sched (hc : (S.cpu c).thread = some u) (hcode : (S.thread u).code = .sched :: is) :
    Goes ready chan (S.exec ready chan c u .sched is) := by
  obtain ⟨hu, hrun⟩ := h.running hc
  have hsafe := h.safe_code hc hcode
  have hg : G u = { Ctx.rest with off := true } := hsafe.1
  have hagrees := h.agrees
  have hact : act S G H c = Ctx.grip { Ctx.rest with off := true } := by rw [act_thread hc, hg]
  have hhold : S.locks.holding c .ptable = true := by
    rw [hagrees.holding_iff, hact]
    rfl
  have hncli : (S.locks.cli c).ncli = 1 := by
    rw [hagrees.ncli, hact]
    rfl
  have hintr : (S.locks.cli c).intr = false := by
    refine hagrees.intr c ?_
    rw [hact]
    decide
  have hstate : (S.thread u).state ≠ .running := hrun.mpr (by rw [hg])
  have htest : S.schedTest c u = none := by simp [Sys.schedTest, hhold, hncli, hintr, hstate]
  refine .inr ⟨S.setThread u { S.thread u with code := is, intena := (S.locks.cli c).intena }, G, H,
    by simp only [Sys.exec, htest], ?_⟩
  exact h.exec_own hc hcode rfl rfl rfl (h.agrees_self hc) rfl rfl rfl (fun _ => rfl) rfl

theorem switch {t : Thread} {g : Ctx} (hu : S.used u)
    (hth : S'.thread = update S.thread u t) (hcond : S'.cond = S.cond)
    (hlocks : S'.locks = S.locks) (hcpu : ∀ {d}, d ≠ c → S'.cpu d = S.cpu d)
    (hact : act S' (update G u g) H c = act S G H c)
    (hone : ∀ {d}, (S.cpu d).thread = some u → d = c) (ht : t.state ≠ .unused)
    (hsafe : Safe chan t.code g) (hn : g.ncli ≠ 0) (hoff : g.off = false) (hk : g.know = .idle)
    (hk' : (G u).know = .idle)
    (hsleep : t.state = .sleeping → (S.thread u).state = .sleeping ∧ t.chan = (S.thread u).chan)
    (hssafe : SSafe (S'.cpu c).code (H c))
    (hparked : ∀ {v}, (S'.cpu c).thread = some v → v = u ∧ H c = .only .ptable ∧ t.state = .running)
    (hresting : (S'.cpu c).thread = none → (S.cpu c).thread = some u ∧ g = .rest ∧ t.state ≠ .running)
    (hfree : (S.cpu c).thread = none ∨ (S.cpu c).thread = some u) :
    Inv ready chan S' (update G u g) H := by
  have hself : S'.thread u = t := by rw [hth, update_self]
  have hother : ∀ {v}, v ≠ u → S'.thread v = S.thread v := by
    intro v hv
    rw [hth, update_of_ne hv]
  have hused : ∀ {v}, S'.used v ↔ S.used v := by
    intro v
    by_cases hv : v = u
    · rw [hv, Sys.used, hself]
      exact iff_of_true ht hu
    · rw [Sys.used, Sys.used, hother hv]
  have harmed : ∀ {w}, Armed S' (update G u g) w ↔ w ≠ u ∧ Armed S G w := by
    intro w
    by_cases hw : w = u
    · subst hw
      refine iff_of_false (fun hw => ?_) fun hw => hw.1 rfl
      have := hw.know
      simp [hk] at this
    · constructor
      · rintro ⟨h₁, h₂, h₃⟩
        exact ⟨hw, hused.mp h₁, by simpa [hw] using h₂, by simpa [hw] using h₃⟩
      · rintro ⟨-, h₁, h₂, h₃⟩
        exact ⟨hused.mpr h₁, by simpa [hw] using h₂, by simpa [hw] using h₃⟩
  have hacts : act S' (update G u g) H = act S G H := by
    funext d
    by_cases hdc : d = c
    · rw [hdc, hact]
    · rw [act, act, hcpu hdc]
      cases hv : (S.cpu d).thread with
      | none => rfl
      | some v =>
        have hvu : v ≠ u := by
          rintro rfl
          exact hdc (hone hv)
        simp [hvu]
  have hthread : ∀ {d v}, (S'.cpu d).thread = some v →
      d = c ∧ v = u ∨ d ≠ c ∧ v ≠ u ∧ (S.cpu d).thread = some v := by
    intro d v hd
    by_cases hdc : d = c
    · subst hdc
      exact .inl ⟨rfl, (hparked hd).1⟩
    · rw [hcpu hdc] at hd
      refine .inr ⟨hdc, ?_, hd⟩
      rintro rfl
      exact hdc (hone hd)
  refine ⟨by rw [hlocks, hacts]; exact h.agrees, fun {v} hv => ?_, fun {v} hv => ?_, fun d => ?_,
    fun {d v} hd => ?_, fun {d e v} hd he => ?_, fun {v} hv hno => ?_, fun {d v} hd => ?_, fun {v} hv => ?_,
    fun {v} hv => h.ready (hused.mp hv), fun {v} hv => ?_, fun {v} hv hkv => ?_, fun {w} hw => ?_,
    fun {v} hs hch hC => ?_⟩
  · by_cases hvu : v = u
    · subst hvu
      rw [hself, update_self]
      exact hsafe
    · rw [hother hvu, update_of_ne hvu]
      exact h.safe (hused.mp hv)
  · by_cases hvu : v = u
    · subst hvu
      rw [update_self]
      exact fun h0 => absurd h0 hn
    · rw [update_of_ne hvu]
      exact h.start (hused.mp hv)
  · by_cases hdc : d = c
    · rw [hdc]
      exact hssafe
    · rw [hcpu hdc]
      exact h.ssafe d
  · obtain ⟨rfl, rfl⟩ | ⟨-, -, hd⟩ := hthread hd
    · exact (hparked hd).2.1
    · exact h.parked hd
  · obtain ⟨rfl, rfl⟩ | ⟨-, hvu, hd⟩ := hthread hd <;>
      obtain ⟨rfl, hvu'⟩ | ⟨-, hvu', he⟩ := hthread he
    · rfl
    · exact absurd rfl hvu'
    · exact absurd hvu' hvu
    · exact h.one hd he
  · by_cases hvu : v = u
    · subst hvu
      have hnone : (S'.cpu c).thread = none := by
        cases hk : (S'.cpu c).thread with
        | none => rfl
        | some w =>
          obtain ⟨rfl, -⟩ := hparked hk
          exact absurd hk (hno c)
      rw [update_self, hself]
      exact (hresting hnone).2
    · rw [update_of_ne hvu, hother hvu]
      refine h.resting (hused.mp hv) fun d hd => ?_
      by_cases hdc : d = c
      · subst hdc
        obtain hf | hf := hfree
        · cases hf.symm.trans hd
        · exact hvu (Option.some.inj (hd.symm.trans hf))
      · exact hno d (by rw [hcpu hdc, hd])
  · obtain ⟨rfl, rfl⟩ | ⟨-, hvu, hd⟩ := hthread hd
    · rw [hused, hself, update_self, hoff, (hparked hd).2.2]
      exact ⟨hu, by simp⟩
    · rw [hused, hother hvu, update_of_ne hvu]
      exact h.running hd
  · by_cases hvu : v = u
    · subst hvu
      simp [hoff]
    · rw [update_of_ne hvu]
      exact h.off (hused.mp hv)
  · by_cases hvu : v = u
    · subst hvu
      simp [hk]
    · rw [update_of_ne hvu, hcond]
      exact h.saw (hused.mp hv)
  · have hvu : v ≠ u := by
      rintro rfl
      simp [hk] at hkv
    rw [update_of_ne hvu] at hkv ⊢
    obtain ⟨hheld, hex⟩ := h.promised (hused.mp hv) hkv
    refine ⟨hheld, fun hC => ?_⟩
    obtain ⟨w, hw⟩ := hex (hcond ▸ hC)
    refine ⟨w, harmed.mpr ⟨?_, hw⟩⟩
    rintro rfl
    cases hk'.symm.trans hw.know
  · obtain ⟨hwu, hw⟩ := harmed.mp hw
    rw [hother hwu]
    exact h.armed hw
  · rw [hcond] at hC
    have hold : (S.thread v).state = .sleeping ∧ (S.thread v).chan = chan := by
      by_cases hvu : v = u
      · subst hvu
        rw [hself] at hs hch
        exact ⟨(hsleep hs).1, (hsleep hs).2 ▸ hch⟩
      · rw [hother hvu] at hs hch
        exact ⟨hs, hch⟩
    obtain ⟨w, hw, hkw, hmem⟩ := h.sleeping hold.1 hold.2 hC
    have hwu : w ≠ u := by
      rintro rfl
      cases hk'.symm.trans hkw
    exact ⟨w, hused.mpr hw, by rwa [update_of_ne hwu], by rwa [hother hwu]⟩

theorem exec_swtch (hc : (S.cpu c).thread = some u) (hcode : (S.thread u).code = .swtch :: is) :
    Goes ready chan (S.exec ready chan c u .swtch is) := by
  obtain ⟨hu, hrun⟩ := h.running hc
  obtain ⟨hg, -, hrest⟩ := h.safe_code hc hcode
  have hg : G u = { Ctx.rest with off := true } := hg
  rw [hg] at hrest
  refine .inr ⟨_, update G u .rest, H, rfl, ?_⟩
  refine h.switch (c := c) hu rfl rfl rfl (fun hd => by simp [Sys.setCpu, Sys.setThread, hd]) ?_
    (fun hd => h.one hd hc) hu hrest (by decide) rfl rfl (by rw [hg]; rfl) (fun hs => ⟨hs, rfl⟩)
    (by simpa [Sys.setCpu] using h.ssafe c) (fun hv => ?_) (fun _ => ⟨hc, rfl, hrun.mpr (by rw [hg])⟩)
    (.inr hc)
  · rw [act_sched (by simp [Sys.setCpu]), act_thread hc, h.parked hc, hg]
    exact only_ptable
  · simp [Sys.setCpu] at hv

theorem pick (hc : (S.cpu c).thread = none) (hgrip : H c = .only .ptable)
    (hs : (S.thread u).state = .runnable) {code : List SIns} (hcode : SSafe code (H c)) :
    Inv ready chan ((S.setThread u { S.thread u with state := .running }).setCpu c ⟨some u, code⟩) G H := by
  have hu : S.used u := by simp [Sys.used, hs]
  -- nobody runs the thread: that processor would have `ptable.lock`
  have hno : ∀ d, (S.cpu d).thread ≠ some u := by
    intro d hd
    have hoff : (G u).off = true := (h.running hd).2.mp (by simp [hs])
    have hdc : d = c := by
      refine h.agrees.excl (l := .ptable) ?_ ?_
      · rw [act_thread hd, Ctx.grip_ptable, (h.off hu hoff).1]
        simp
      · rw [act_sched hc, hgrip]
        simp
    rw [hdc, hc] at hd
    cases hd
  have hg : G u = .rest := (h.resting hu hno).1
  rw [← update_eq_self u G, hg]
  refine h.switch (c := c) hu rfl rfl rfl (fun hd => by simp [Sys.setCpu, Sys.setThread, hd]) ?_
    (fun {d} hd => absurd hd (hno d)) (by simp) (hg ▸ h.safe hu) (by decide) rfl rfl (by rw [hg]; rfl)
    (by simp) (by simpa [Sys.setCpu] using hcode)
    (fun hv => ⟨by simpa [Sys.setCpu, eq_comm] using hv, hgrip, rfl⟩)
    (fun hv => by simp [Sys.setCpu] at hv) (.inl hc)
  rw [act_thread (u := u) (by simp [Sys.setCpu]), act_sched hc, hgrip, update_self]
  exact only_ptable.symm

theorem exec_cli (hc : (S.cpu c).thread = some u) {i : Ins} (hcode : (S.thread u).code = i :: is)
    {k : Cli} (hn : k.ncli = (S.locks.cli c).ncli) (hi : 0 < (G u).ncli → k.intr = false)
    (hp : pending (i :: is) = pending is) (hnext : i.next (G u) = G u) :
    Inv ready chan ((S.setThread u { S.thread u with code := is }).setCli c k) G H := by
  refine h.exec_own hc hcode rfl rfl rfl (h.agrees.setCli ?_ ?_ hi) hp rfl rfl (fun _ => rfl) hnext
  · rw [act_thread hc]
  · rw [hn, h.agrees.ncli, act_thread hc]

end

/-! ### `wakeup1` -/

section

variable (h : Inv ready chan S G H) (hc : (S.cpu c).thread = some u)
include h hc

theorem wake (hk : (G u).know = .armed) (hheld : (G u).ptable = .held) (s : Slot) :
    Inv ready chan (S.wake ready chan s) G H := by
  rw [Sys.wake]
  split_ifs with hif
  swap
  · exact h
  obtain ⟨-, hs, -⟩ := hif
  have hu : S.used s := by simp [Sys.used, hs]
  -- the thread has left its processor: otherwise it would have `ptable.lock`
  have hno : ∀ d, (S.cpu d).thread ≠ some s := by
    intro d hd
    obtain ⟨hpt, hidle⟩ := h.off hu ((h.running hd).2.mp (by simp [hs]))
    obtain rfl := h.excl (l := .ptable) hc hd (by simp [hheld]) (by simp [hpt])
    cases hidle.symm.trans hk
  have hother : ∀ {v}, v ≠ s →
      (S.setThread s { S.thread s with state := .runnable }).thread v = S.thread v := by
    intro v hv
    exact update_of_ne hv _ _
  have hself : (S.setThread s { S.thread s with state := .runnable }).thread s =
      { S.thread s with state := .runnable } := update_self _ _ _
  have hused : ∀ {v}, (S.setThread s { S.thread s with state := .runnable }).used v ↔ S.used v := by
    intro v
    by_cases hv : v = s
    · rw [hv, Sys.used, hself]
      exact iff_of_true (by simp) hu
    · rw [Sys.used, Sys.used, hother hv]
  have hcode : ∀ v, ((S.setThread s { S.thread s with state := .runnable }).thread v).code =
      (S.thread v).code := by
    intro v
    by_cases hv : v = s
    · rw [hv, hself]
    · rw [hother hv]
  have harmed : ∀ {w}, Armed (S.setThread s { S.thread s with state := .runnable }) G w ↔ Armed S G w := by
    intro w
    constructor
    · exact fun hw => ⟨hused.mp hw.used, hw.know, hw.ptable⟩
    · exact fun hw => ⟨hused.mpr hw.used, hw.know, hw.ptable⟩
  refine ⟨h.agrees, fun {v} hv => ?_, fun hv => h.start (hused.mp hv), h.ssafe, h.parked, h.one,
    fun {v} hv hno' => ?_, fun {d v} hd => ?_, fun hv => h.off (hused.mp hv),
    fun hv => h.ready (hused.mp hv), fun hv => h.saw (hused.mp hv), fun {v} hv hkv => ?_,
    fun {w} hw => ?_, fun {v} hsv hch hC => ?_⟩
  · rw [hcode]
    exact h.safe (hused.mp hv)
  · obtain ⟨hg, hr⟩ := h.resting (hused.mp hv) hno'
    refine ⟨hg, ?_⟩
    by_cases hvs : v = s
    · rw [hvs, hself]
      simp
    · rwa [hother hvs]
  · have hvs : v ≠ s := by
      rintro rfl
      exact hno d hd
    rw [hused, hother hvs]
    exact h.running hd
  · obtain ⟨hpt, hex⟩ := h.promised (hused.mp hv) hkv
    refine ⟨hpt, fun hC => ?_⟩
    obtain ⟨w, hw⟩ := hex hC
    exact ⟨w, harmed.mpr hw⟩
  · rw [hcode]
    exact h.armed (harmed.mp hw)
  · have hvs : v ≠ s := by
      rintro rfl
      rw [hself] at hsv
      cases hsv
    rw [hother hvs] at hsv hch
    obtain ⟨w, hw, hkw, hmem⟩ := h.sleeping hsv hch hC
    exact ⟨w, hused.mpr hw, hkw, by rwa [hcode]⟩

theorem pass {code : List Ins} {g : Ctx} (hg : g.grip = (G u).grip) (hoff : g.off = (G u).off)
    (hheld : (G u).ptable = .held) (hrun : (G u).off = false)
    (hk : g.know = .armed ∨ g.know = .idle) (hsafe : Safe chan code g)
    (hpass : ∀ v ∈ pending (S.thread u).code, (S.thread v).state = .sleeping →
      (S.thread v).chan = chan → g.know = .armed ∧ v ∈ pending code) :
    Inv ready chan (S.setThread u { S.thread u with code := code }) (update G u g) H := by
  obtain ⟨hu, hst⟩ := h.running hc
  have hpt : g.ptable = .held := by rw [← Ctx.grip_ptable, hg, Ctx.grip_ptable, hheld]
  have hn : g.ncli ≠ 0 := by
    intro h0
    have := h.start hu (by rw [← Ctx.grip_ncli, ← hg, Ctx.grip_ncli, h0])
    simp [this, Ctx.start] at hheld
  have hout : ¬ Armed S G u := fun hw => by
    have := hw.ptable
    simp [hheld] at this
  have hstate := h.state_running hc hrun
  refine h.advance hc rfl rfl rfl (hg ▸ h.agrees_self hc) hu hsafe (fun h0 => absurd h0 hn)
    (by rw [hoff]; exact hst) (by simp [hoff, hrun]) (fun hs => ?_) (fun hs => ?_) (by simp [hpt])
    (by simp [hstate]) (fun hw => absurd hw hout) (fun _ => hpass) fun hw => absurd hw hout
  · obtain hk | hk := hk <;> cases hk.symm.trans hs
  · obtain hk | hk := hk <;> cases hk.symm.trans hs

theorem exec_wakeup1_nil {ch : Chan} (hcode : (S.thread u).code = .wakeup1 ch [] :: is) :
    Goes ready chan (S.exec ready chan c u (.wakeup1 ch []) is) := by
  obtain ⟨⟨-, -, hheld, hoff⟩, -, hrest⟩ := h.safe_code hc hcode
  refine .inr ⟨_, update G u { G u with know := .idle }, H, rfl,
    h.pass hc rfl rfl hheld hoff (.inr rfl) hrest fun v hv => ?_⟩
  rw [hcode] at hv
  exact absurd hv List.not_mem_nil

end

theorem wake_setThread {s : Slot} {code : List Ins} (hs : s = u → (S.thread u).state ≠ .sleeping) :
    (S.setThread u { S.thread u with code := code }).wake ready chan s =
      (S.wake ready chan s).setThread u { (S.wake ready chan s).thread u with code := code } := by
  by_cases hsu : s = u
  · subst hsu
    simp [Sys.wake, Sys.setThread, hs rfl]
  · rw [Sys.wake, Sys.wake, show (S.setThread u { S.thread u with code := code }).thread s = S.thread s
      from update_of_ne hsu _ _]
    split_ifs with hif
    · simp [Sys.setThread, update_of_ne (Ne.symm hsu), update_comm hsu]
    · rfl

theorem exec_wakeup1_cons (h : Inv ready chan S G H) (hc : (S.cpu c).thread = some u) {ch : Chan}
    {s : Slot} {ss : List Slot} (hcode : (S.thread u).code = .wakeup1 ch (s :: ss) :: is) :
    Goes ready chan (S.exec ready chan c u (.wakeup1 ch (s :: ss)) is) := by
  obtain ⟨hu, hrun⟩ := h.running hc
  obtain ⟨⟨rfl, hk, hheld, hoff⟩, -, hrest⟩ := h.safe_code hc hcode
  have hstate := h.state_running hc hoff
  have hwake := h.wake hc hk hheld s
  have hself : (S.wake ready ch s).thread u = S.thread u := by
    rw [Sys.wake]
    split_ifs with hif
    · refine update_of_ne ?_ _ _
      rintro rfl
      cases hstate.symm.trans hif.2.1
    · rfl
  have hcpu : ((S.wake ready ch s).cpu c).thread = some u := by
    rw [← hc, Sys.wake]
    split_ifs <;> rfl
  have hexec : S.exec ready ch c u (.wakeup1 ch (s :: ss)) is = some (.ok ((S.wake ready ch s).setThread u
      { (S.wake ready ch s).thread u with code := .wakeup1 ch ss :: is })) := by
    rw [← wake_setThread fun _ => by simp [hstate]]
    rfl
  refine .inr ⟨_, update G u (G u), H, hexec, ?_⟩
  refine hwake.pass hcpu rfl rfl hheld hoff (.inl hk) ⟨⟨rfl, hk, hheld, hoff⟩, by simp, hrest⟩
    fun v hv hsv hch => ⟨hk, ?_⟩
  rw [hself, hcode] at hv
  refine (List.mem_cons.mp hv).resolve_left ?_
  -- the thread itself has just been woken
  rintro rfl
  have hused : S.used v := by
    intro hv
    rw [Sys.wake] at hsv
    split_ifs at hsv with hif
    · simp [Sys.setThread] at hsv
    · cases hv.symm.trans hsv
  rw [Sys.wake] at hsv hch
  split_ifs at hsv hch with hif
  · simp [Sys.setThread] at hsv
  · exact hif ⟨h.ready hused, hsv, hch⟩

theorem exec (h : Inv ready chan S G H) (hc : (S.cpu c).thread = some u) {i : Ins}
    (hcode : (S.thread u).code = i :: is) : Goes ready chan (S.exec ready chan c u i is) := by
  have hsafe := h.safe_code hc hcode
  cases i with
  | lock e => exact h.exec_lock hc hcode
  | loop => exact h.exec_loop hc hcode
  | setC b => exact h.exec_setC hc hcode
  | setChan ch =>
    have hoff : (G u).off = false := hsafe.1
    exact .inr ⟨_, G, H, rfl, h.exec_own hc hcode rfl rfl rfl (h.agrees_self hc) rfl rfl rfl
      (fun ho => by rw [ho] at hoff; cases hoff) rfl⟩
  | setState st => exact h.exec_setState hc hcode
  | sched => exact h.exec_sched hc hcode
  | swtch => exact h.exec_swtch hc hcode
  | restore =>
    refine .inr ⟨_, G, H, rfl, h.exec_cli hc hcode rfl (fun hn => ?_) rfl rfl⟩
    exact h.agrees.intr c (by rwa [act_thread hc])
  | wakeup1 ch ss =>
    cases ss with
    | nil => exact h.exec_wakeup1_nil hc hcode
    | cons s ss => exact h.exec_wakeup1_cons hc hcode
  | iret =>
    have hg : G u = .start := hsafe.1
    refine .inr ⟨_, G, H, rfl, h.exec_cli hc hcode rfl (fun hn => ?_) rfl rfl⟩
    rw [hg] at hn
    exact absurd hn (lt_irrefl 0)

/-! ### The scheduler -/

theorem advance_sched (h : Inv ready chan S G H) (hc : (S.cpu c).thread = none) {code : List SIns}
    {x : Grip Lock} (hcpu : S'.cpu = update S.cpu c ⟨none, code⟩)
    (hth : S'.thread = S.thread) (hcond : S'.cond = S.cond)
    (hagrees : S'.locks.Agrees (update (act S G H) c x)) (hsafe : SSafe code x) :
    Inv ready chan S' G (update H c x) := by
  obtain ⟨locks, cpu, thread, cond⟩ := S'
  subst hcpu hth hcond
  have hthread : ∀ d, ((update S.cpu c ⟨none, code⟩ : Fin ncpu → Cpu) d).thread =
      (S.cpu d).thread := by
    intro d
    by_cases hd : d = c
    · subst hd
      rw [update_self, hc]
    · rw [update_of_ne hd]
  have hne : ∀ {d v}, (S.cpu d).thread = some v → d ≠ c := by
    rintro d v hd rfl
    cases hc.symm.trans hd
  refine ⟨?_, h.safe, h.start, fun d => ?_, fun {d v} hd => ?_, fun {d e v} hd he => ?_,
    fun hv hno => h.resting hv fun d hd => hno d ((hthread d).trans hd), fun {d v} hd => ?_,
    h.off, h.ready, h.saw, fun hv hk => ?_, fun hw => h.armed ⟨hw.used, hw.know, hw.ptable⟩, h.sleeping⟩
  · convert hagrees using 1
    funext d
    by_cases hd : d = c
    · subst hd
      rw [update_self, act_sched (by simp), update_self]
    · rw [update_of_ne hd, act, act]
      simp only [update_of_ne hd]
  · by_cases hd : d = c
    · subst hd
      simpa using hsafe
    · simpa [hd] using h.ssafe d
  · rw [hthread] at hd
    rw [update_of_ne (hne hd)]
    exact h.parked hd
  · rw [hthread] at hd he
    exact h.one hd he
  · rw [hthread] at hd
    exact h.running hd
  · obtain ⟨hpt, hex⟩ := h.promised hv hk
    refine ⟨hpt, fun hC => ?_⟩
    obtain ⟨w, hw⟩ := hex hC
    exact ⟨w, hw.used, hw.know, hw.ptable⟩

theorem exec_scheduler (h : Inv ready chan S G H) (hc : (S.cpu c).thread = none) {i : SIns}
    {is : List SIns} (hcode : (S.cpu c).code = i :: is) :
    Goes ready chan (S.execSched ready c i is) := by
  have hsafe := h.ssafe c
  rw [hcode] at hsafe
  obtain ⟨hpre, hrest⟩ := hsafe
  have hact : act S G H c = H c := act_sched hc
  have hsame : S.locks.Agrees (update (act S G H) c (H c)) := by
    rw [← hact, update_eq_self]
    exact h.agrees
  cases i with
  | lock e =>
    obtain ⟨l, d, -, hnone, -⟩ | ⟨K, hK, hagrees⟩ := h.agrees.run (c := c) (e := e) (hact ▸ hpre)
    · exact .inl (by simp [Sys.execSched, hnone])
    rw [hact] at hagrees
    exact .inr ⟨{ S.setCpu c ⟨none, is⟩ with locks := K }, G, _, by simp only [Sys.execSched, hK],
      h.advance_sched hc rfl rfl rfl hagrees hrest⟩
  | sti =>
    have hn : (H c).ncli = 0 := hpre
    refine .inr ⟨_, G, update H c (H c), rfl,
      h.advance_sched hc rfl rfl rfl (h.agrees.setCli ?_ ?_ ?_) hrest⟩
    · rw [hact]
    · show (S.locks.cli c).ncli = _
      rw [h.agrees.ncli, hact]
    · simp [hn]
  | scan ss =>
    cases ss with
    | nil => exact .inr ⟨_, G, _, rfl, h.advance_sched hc rfl rfl rfl hsame hrest⟩
    | cons s ss =>
      have hcode' : SSafe (.scan ss :: is) (H c) := ⟨hpre, hrest⟩
      by_cases hif : ready s.1 ∧ (S.thread s).state = .runnable
      · exact .inr ⟨_, G, H, if_pos hif, h.pick hc hpre hif.2 hcode'⟩
      · exact .inr ⟨_, G, _, if_neg hif, h.advance_sched hc rfl rfl rfl hsame hcode'⟩

/-! ## Runs -/

theorem restart (h : Inv ready chan S G H) (hc : (S.cpu c).thread = some u) (hg : G u = .start)
    {code : List Ins} (hcpu : S'.cpu = S.cpu)
    (hth : S'.thread = update S.thread u { S.thread u with code := code })
    (hcond : S'.cond = S.cond) (hagrees : S'.locks.Agrees (update (act S G H) c (G u).grip))
    (hsafe : Safe chan code .start) : Inv ready chan S' G H := by
  obtain ⟨hu, hrun⟩ := h.running hc
  have hidle : (G u).know = .idle := by rw [hg]; rfl
  have hstate := h.state_running hc (by rw [hg]; rfl)
  have hna : (G u).know ≠ .armed := by simp [hidle]
  rw [← update_eq_self u G]
  exact h.advance hc hcpu hth hcond hagrees hu (by rw [hg]; exact hsafe) (h.start hu) hrun (h.off hu)
    (h.saw hu) (h.promised hu) (fun hk => absurd hk hna) (by simp [hstate]) (fun hw => hw.know)
    (fun hk => absurd hk hna) fun hw => absurd hw.know hna

theorem tick (h : Inv ready chan S G H) (hc : (S.cpu c).thread = some u)
    (hi : (S.locks.cli c).intr = true) :
    Inv ready chan ((S.setThread u
      { S.thread u with code := yield ++ .iret :: (S.thread u).code }).setCli c
        { S.locks.cli c with intr := false }) G H := by
  obtain ⟨hu, -⟩ := h.running hc
  have hact : act S G H c = (G u).grip := act_thread hc
  have hn : (G u).ncli = 0 := by
    by_contra hne
    have hoff := h.agrees.intr c (by rw [hact]; exact Nat.pos_of_ne_zero hne)
    rw [hi] at hoff
    cases hoff
  have hg := h.start hu hn
  refine h.restart hc hg rfl rfl rfl (h.agrees.setCli ?_ ?_ fun _ => rfl) (safe_yield chan (hg ▸ h.safe hu))
  · rw [hact]
  · show (S.locks.cli c).ncli = _
    rw [h.agrees.ncli, hact]

theorem step (h : Inv ready chan S G H) (a : Act ncpu) : Goes ready chan (step ready chan S a) := by
  cases a with
  | run c =>
    cases hc : (S.cpu c).thread with
    | some u =>
      cases hcode : (S.thread u).code with
      | nil => exact .inl (by simp [Sleep.step, hc, hcode])
      | cons i is =>
        have := h.exec hc hcode
        simpa [Sleep.step, hc, hcode] using this
    | none =>
      cases hcode : (S.cpu c).code with
      | nil =>
        have hnone := h.ssafe c
        rw [hcode] at hnone
        have hnone : H c = .none := hnone
        refine .inr ⟨S.setCpu c ⟨none, scheduler⟩, G, update H c .none,
          by simp [Sleep.step, hc, hcode], h.advance_sched hc rfl rfl rfl ?_
            ssafe_scheduler⟩
        rw [← hnone, ← act_sched (G := G) (H := H) hc, update_eq_self]
        exact h.agrees
      | cons i is =>
        have := h.exec_scheduler hc hcode
        simpa [Sleep.step, hc, hcode] using this
  | begin c r =>
    cases hc : (S.cpu c).thread with
    | none => exact .inl (by simp [Sleep.step, hc])
    | some u =>
      cases hcode : (S.thread u).code with
      | cons i is => exact .inl (by simp [Sleep.step, hc, hcode])
      | nil =>
        have hg := h.safe (h.running hc).1
        rw [hcode] at hg
        exact .inr ⟨S.setThread u { S.thread u with code := r.code chan }, G, H,
          by simp [Sleep.step, hc, hcode], h.restart hc hg rfl rfl rfl (h.agrees_self hc)
            (safe_role chan r)⟩
  | tick c =>
    cases hc : (S.cpu c).thread with
    | none => exact .inl (by simp [Sleep.step, hc])
    | some u =>
      by_cases hif : (S.locks.cli c).intr = true ∧ (S.thread u).state = .running
      · exact .inr ⟨_, G, H, by simp only [Sleep.step, hc]; exact if_pos hif,
          h.tick hc hif.1⟩
      · exact .inl (by simp only [Sleep.step, hc]; exact if_neg hif)

end Inv

theorem Start.inv (h : Start ready S) : Inv ready chan S (fun _ => .rest) fun _ => .none := by
  obtain ⟨hlock, hncli, hcpu, hthread⟩ := h
  have hact : ∀ c, act S (fun _ => .rest) (fun _ => .none) c = .none := by
    intro c
    rw [act, hcpu]
  have hused : ∀ {u}, S.used u →
      ready u.1 = true ∧ (S.thread u).state = .runnable ∧ (S.thread u).code = forkret :=
    fun {u} hu => (hthread u).resolve_left hu
  refine ⟨⟨fun c => ?_, fun c hc => ?_, fun l => ?_, fun {l c d} hc => ?_, fun l c => ?_⟩, fun hu => ?_,
    fun _ hn => ?_, fun c => ?_, fun {c u} hc => ?_, fun {c d u} hc => ?_, fun hu _ => ⟨rfl, ?_⟩,
    fun {c u} hc => ?_, fun _ ho => ?_, fun hu => (hused hu).1, fun _ hk => ?_, fun _ hk => ?_,
    fun hw => ?_, fun {u} hs _ _ => ?_⟩
  · rw [hact, hncli]
    rfl
  · rw [hact] at hc
    exact absurd hc (lt_irrefl 0)
  · simp [hlock, hact]
  · rw [hact] at hc
    exact absurd rfl hc
  · simp [hlock, hact]
  · rw [(hused hu).2.2]
    exact safe_forkret chan
  · cases hn
  · rw [hcpu]
    rfl
  · simp [hcpu] at hc
  · simp [hcpu] at hc
  · simp [(hused hu).2.1]
  · simp [hcpu] at hc
  · cases ho
  · cases hk
  · cases hk
  · cases hw.know
  · obtain hu | hu := hthread u
    · cases hu.symm.trans hs
    · cases hu.2.1.symm.trans hs

theorem inv_of_reach (h : Reach (step ready chan) anyStep (Start ready) S) :
    ∃ G H, Inv ready chan S G H := by
  refine h.invariant (I := fun S => ∃ G H, Inv ready chan S G H) (fun S hS => ⟨_, _, hS.inv⟩) ?_
  rintro S a S' ⟨G, H, hI⟩ - hs
  obtain hn | ⟨T, G', H', hT, hI'⟩ := hI.step a
  · cases hn.symm.trans hs
  · obtain rfl : T = S' := by
      have := hT.symm.trans hs
      simpa using this
    exact ⟨G', H', hI'⟩

/-- **`sleep` cannot miss a wakeup.** For any number of processors, any channel and any set of
threads of ready processes that wait for the condition and make it true, in any interleaving
of their steps: a thread that sleeps on the channel while the condition is true has a waker
that has made it true and whose `wakeup` is not finished; a thread that is back at its test
holds `lk` and not `ptable.lock`; and no step panics. -/
theorem no_missed_wakeup {ncpu : ℕ} {ready : PId → Bool} {chan : Chan} {S : Sys ncpu}
    (h : Reach (step ready chan) anyStep (Start ready) S) :
    (∀ u, (S.thread u).state = .sleeping → (S.thread u).chan = chan → S.cond = true →
      ∃ w, (S.thread w).state ≠ .unused ∧ inWakeup (S.thread w).code = true) ∧
    (∀ c u is, (S.cpu c).thread = some u → (S.thread u).code = .loop :: is →
      S.locks.holding c .lk = true ∧ S.locks.holding c .ptable = false) ∧
    ∀ a p, step ready chan S a ≠ some (.error p) := by
  obtain ⟨G, H, hI⟩ := inv_of_reach h
  refine ⟨fun u hs hch hC => ?_, fun c u is hc hcode => ?_, fun a p hp => ?_⟩
  · obtain ⟨w, hw, -, hmem⟩ := hI.sleeping hs hch hC
    exact ⟨w, hw, inWakeup_of_pending hmem⟩
  · have hsafe := hI.safe (hI.running hc).1
    rw [hcode] at hsafe
    have hact : act S G H c = Ctx.testing.grip := by
      rw [act_thread hc, show G u = .testing from hsafe.1]
    rw [← Bool.not_eq_true, hI.agrees.holding_iff, hI.agrees.holding_iff, hact]
    exact ⟨rfl, by decide⟩
  · obtain hn | ⟨T, G', H', hT, -⟩ := hI.step a
    · cases hn.symm.trans hp
    · cases hT.symm.trans hp

/-- The two threads of the example. -/
def first : Slot := (⟨0, by decide⟩, ⟨0, by decide⟩)

@[inherit_doc first]
def second : Slot := (⟨0, by decide⟩, ⟨1, by decide⟩)

/-- One processor, and two threads that have not run yet. -/
def twoThreads : Sys 1 where
  locks := ⟨fun _ => ⟨false, none⟩, fun _ => ⟨0, false, false⟩⟩
  cpu _ := ⟨none, []⟩
  thread u := ⟨if u = first ∨ u = second then .runnable else .unused, .null, forkret, false⟩
  cond := false

/-- The first thread waits and goes to sleep, the second makes the condition true. -/
def sleepThenSet : List (Act 1) :=
  List.replicate 10 (.run 0) ++ [.begin 0 (.waiter true)] ++ List.replicate 20 (.run 0) ++
    [.begin 0 .waker] ++ List.replicate 5 (.run 0)

theorem start_twoThreads : Start (fun _ => true) twoThreads := by
  refine ⟨fun _ => rfl, fun _ => rfl, fun _ => rfl, fun u => ?_⟩
  by_cases hu : u = first ∨ u = second
  · exact .inr ⟨rfl, if_pos hu, rfl⟩
  · exact .inl (if_neg hu)

theorem no_missed_wakeup_twoThreads :
    ∃ S : Sys 1, Reach (step (fun _ => true) .ticks) anyStep (Start fun _ => true) S ∧
      (S.thread first).state = .sleeping ∧ S.cond = true ∧
      ∃ w, (S.thread w).state ≠ .unused ∧ inWakeup (S.thread w).code = true := by
  have he : endsIn (step (fun _ => true) .ticks) twoThreads sleepThenSet (fun S => decide
      ((S.thread first).state = .sleeping ∧ (S.thread first).chan = .ticks ∧ S.cond = true)) = true := by
    decide +kernel
  obtain ⟨S, hS, hp⟩ := Reach.of_endsIn start_twoThreads he
  obtain ⟨hs, hch, hC⟩ := of_decide_eq_true hp
  exact ⟨S, hS, hs, hC, (no_missed_wakeup hS).1 first hs hch hC⟩

end Xv6.Sleep
