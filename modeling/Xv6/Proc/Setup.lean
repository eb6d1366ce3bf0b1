import Xv6.Proc.Lifecycle

/-!
# Setting up processes and threads

`fork` and `kthread_create` work on a process or a thread for a while before anyone can
run it.  This file shows that they keep `Inv`, operation by operation.  Setting up a
process happens off stage: the process is not ready before or after, so no thread of it
can run, and only the thread that has it in its hands is concerned (`Inv.offstage`).
Publishing it, and publishing a thread, puts a new thread on the stage (`Inv.publish`,
`Inv.publishThread`).
-/

namespace Xv6.Proc

open Function Transition Kernel

variable {ncpu : ℕ} {S S' : Kernel ncpu} {G : Slot → Ctx} {c : Fin ncpu} {s : Slot} {g : Ctx}
  {p : KProg Unit}

theorem Tables.running_active (h : Tables S) (hc : (S.cpu c).thread = some s) :
    (S.thread s).state.active = true := by
  simp [h.running hc]

variable {q : PId}

theorem Tables.not_live (h : Tables S) (hq : (S.proc q).isReady = false) (t : TId) :
    (S.thread (q, t)).state.live = false :=
  Bool.eq_false_iff.mpr fun ht => h.ne_of_live hq ht rfl

theorem Entry.not_ready_of_embryo {e : Entry} (h : e.state = .embryo) : e.isReady = false := by
  simp [Entry.isReady, h]

theorem Entry.not_ready_of_not_live {e : Entry} (h : e.state.live = false) :
    e.isReady = false :=
  Bool.eq_false_iff.mpr fun hr => Bool.false_ne_true (h.symm.trans (Entry.live_of_isReady hr))

namespace Inv

theorem pre_of_code (h : Inv S G) (hc : (S.cpu c).thread = some s) {e : KOp} {k : e.Ans → KProg Unit}
    (hcode : S.code s = .vis e k) : e.pre (G s) := by
  have hsafe := h.safe (h.running_active hc)
  rw [hcode] at hsafe
  exact hsafe.1

theorem start_of_code (h : Inv S G) (hc : (S.cpu c).thread = some s) {u : Unit}
    (hcode : S.code s = .ret u) : G s = .start := by
  have hsafe := h.safe (h.running_active hc)
  rw [hcode] at hsafe
  exact hsafe

section

variable (h : Inv S G) (hq : Quiet S S') (hc : (S.cpu c).thread = some s) (hp : Finishes p g)
include h hq hc hp

theorem goOn (hg : Owns S' s g)
    (hnp : ∀ q st, g.np = some (q, st) → ∃ st', (G s).np = some (q, st'))
    (hnt : ∀ t b, g.nt = some (t, b) → ∃ b', (G s).nt = some (t, b')) :
    Inv { S' with code := update S'.code s p } (update G s g) := by
  have hs := h.running_active hc
  have hact : ∀ u, (S'.thread u).state.active = true → (S.thread u).state.active = true :=
    fun u hu => hq.active_eq u ▸ hu
  refine h.advance (h.toTables.quiet hq) ((hq.active_eq s).trans hs)
    (fun u _ hu => ⟨hact u hu, by rw [hq.code]⟩) (fun u _ hu => (h.owns (hact u hu)).quiet hq) hp hg
    ?_ ?_
  · intro q st hgq u hus hu st'
    obtain ⟨_, hold⟩ := hnp q st hgq
    exact h.owner_unique hs hold hus hu st'
  · intro t b hgt u hus hu hu1 b' hgu
    obtain ⟨_, hold⟩ := hnt t b hgt
    exact hus (h.ntInj hu hs hu1 hgu hold)

theorem goOn' (hnp : g.np = (G s).np) (hnt : g.nt = (G s).nt) :
    Inv { S' with code := update S'.code s p } (update G s g) :=
  h.goOn hq hc hp (((h.owns (h.running_active hc)).quiet hq).of_ctx hnp hnt)
    (fun _ st hg => ⟨st, hnp ▸ hg⟩) fun _ b hg => ⟨b, hnt ▸ hg⟩

end

/-! ## Setting up a process -/

section

variable (h : Inv S G) (hc : (S.cpu c).thread = some s)
include h hc

theorem offstage (hq : (S.proc q).isReady = false)
    (hfree : ∀ u, u ≠ s → (S.thread u).state.active = true → ∀ st, (G u).np ≠ some (q, st))
    (hproc : ∀ p, p ≠ q → S'.proc p = S.proc p)
    (hthread : ∀ u : Slot, u.1 ≠ q → S'.thread u = S.thread u) (hcpu : S'.cpu = S.cpu)
    (hcode : ∀ u : Slot, u.1 ≠ q → S'.code u = S.code u) (hq' : (S'.proc q).state.active = false)
    (hlive : ∀ t, (S'.thread (q, t)).state.live = false)
    (hrow : (S'.proc q).state.live = true → (S'.proc q).threads = true)
    (horphan : (S'.proc q).state = .unused → (S'.proc q).parent = none) (hp : Finishes p g)
    (hnt : g.nt = (G s).nt)
    (hnp : ∀ q' st, g.np = some (q', st) → q' = q ∨ (G s).np = some (q', st))
    (hg : ∀ st, g.np = some (q, st) → (S'.proc q).state = .embryo ∧
      (S'.proc q).parent = (if st = .child then some s.1 else none) ∧
      (st ≠ .found → st ≠ .stack → S'.code (q, 0) = forkret)) :
    Inv { S' with code := update S'.code s p } (update G s g) := by
  have hs := h.running_active hc
  have hsq : s.1 ≠ q := h.ne_of_live hq (h.running_live hc)
  have hne : ∀ u : Slot, (S'.thread u).state.active = true → u.1 ≠ q := by
    rintro u hu rfl
    exact Bool.false_ne_true ((hlive u.2).symm.trans (RunState.live_of_active hu))
  refine h.advance (h.toTables.offstage hq hproc hthread hcpu hq' hlive hrow horphan) ?_ ?_ ?_ hp
    ?_ ?_ ?_
  · rw [hthread s hsq]
    exact hs
  · exact fun u _ hu => ⟨hthread u (hne u hu) ▸ hu, hcode u (hne u hu)⟩
  · intro u hus hu
    have huq := hne u hu
    rw [hthread u huq] at hu
    refine (h.owns hu).of_same (fun q' st hgu => ?_) fun t b hgu => ?_
    · have hq'q : q' ≠ q := by
        rintro rfl
        exact hfree u hus hu st hgu
      rw [hproc q' hq'q]
      exact ⟨rfl, rfl, hcode _ hq'q⟩
    · rw [hthread (u.1, t) huq]
      exact ⟨rfl, hcode _ huq⟩
  · have hown := h.owns hs
    have hold : ∀ q' st, g.np = some (q', st) → q' ≠ q → (G s).np = some (q', st) :=
      fun q' st hgq hne => (hnp q' st hgq).resolve_left hne
    refine ⟨fun {q' st} hgq => ?_, fun {q' st} hgq => ?_, fun {q' st} hgq h₁ h₂ => ?_,
      fun {t b} hgt => ?_, fun {t} hgt => ?_⟩
    · by_cases hq'q : q' = q
      · subst hq'q
        exact (hg st hgq).1
      · rw [hproc q' hq'q]
        exact hown.embryo (hold q' st hgq hq'q)
    · by_cases hq'q : q' = q
      · subst hq'q
        exact (hg st hgq).2.1
      · rw [hproc q' hq'q]
        exact hown.parent (hold q' st hgq hq'q)
    · by_cases hq'q : q' = q
      · subst hq'q
        exact (hg st hgq).2.2 h₁ h₂
      · rw [hcode (q', 0) hq'q]
        exact hown.code (hold q' st hgq hq'q) h₁ h₂
    · rw [hthread (s.1, t) hsq]
      exact hown.thread (hnt ▸ hgt)
    · rw [hcode (s.1, t) hsq]
      exact hown.threadCode (hnt ▸ hgt)
  · intro q' st hgq u hus hu st'
    obtain rfl | hold := hnp q' st hgq
    · exact hfree u hus hu st'
    · exact h.owner_unique hs hold hus hu st'
  · exact fun t b hgt u hus hu hu1 b' hgu => hus (h.ntInj hu hs hu1 hgu (hnt ▸ hgt))

theorem entry (hq : (S.proc q).isReady = false)
    (hfree : ∀ u, u ≠ s → (S.thread u).state.active = true → ∀ st, (G u).np ≠ some (q, st))
    {e : Entry} (hproc : S'.proc = update S.proc q e) (hthread : S'.thread = S.thread)
    (hcpu : S'.cpu = S.cpu) (hcode : S'.code = S.code) (hq' : e.state.active = false)
    (hrow : e.state.live = true → e.threads = true) (horphan : e.state = .unused → e.parent = none)
    (hp : Finishes p g) (hnt : g.nt = (G s).nt)
    (hnp : ∀ q' st, g.np = some (q', st) → q' = q ∨ (G s).np = some (q', st))
    (hg : ∀ st, g.np = some (q, st) → e.state = .embryo ∧
      e.parent = (if st = .child then some s.1 else none) ∧
      (st ≠ .found → st ≠ .stack → S.code (q, 0) = forkret)) :
    Inv { S' with code := update S'.code s p } (update G s g) := by
  have he : S'.proc q = e := by simp [hproc]
  refine h.offstage hc hq hfree (fun p hp => by simp [hproc, hp]) (fun _ _ => by rw [hthread]) hcpu
    (fun _ _ => by rw [hcode]) (he ▸ hq') (fun t => ?_) (he ▸ hrow) (he ▸ horphan) hp hnt hnp ?_
  · rw [hthread]
    exact h.not_live hq t
  · rw [he, hcode]
    exact hg

theorem of_procAlloc (hp : Finishes p (KOp.procAlloc.next S.procAlloc.1 (G s)))
    (hpre : (G s).np = none) :
    Inv { S.procAlloc.2 with code := update S.procAlloc.2.code s p }
      (update G s (KOp.procAlloc.next S.procAlloc.1 (G s))) := by
  unfold procAlloc at hp ⊢
  split at hp
  · exact h.goOn' .of_eq hc hp hpre.symm rfl
  · rename_i q hq
    have hunused : (S.proc q).state = .unused := by simpa using first?_eq_some hq
    refine h.entry hc (q := q) (Entry.not_ready_of_not_live (by simp [hunused]))
      (fun u _ hu => h.unowned (by simp [hunused]) hu) rfl rfl rfl rfl
      rfl (fun _ => rfl) (by simp) hp rfl ?_ ?_
    · simp +contextual
    · simp [h.orphan hunused]

theorem of_stackAlloc {r : Bool} {ch : Choice}
    (hperf : S.perform c s ch (.stackAlloc q) = some (.done r S'))
    (hp : Finishes p (KOp.next (.stackAlloc q) r (G s))) (hpre : (G s).np = some (q, .found)) :
    Inv { S' with code := update S'.code s p }
      (update G s (KOp.next (.stackAlloc q) r (G s))) := by
  have hs := h.running_active hc
  have hembryo := (h.owns hs).embryo hpre
  have hparent := (h.owns hs).parent hpre
  have hq := Entry.not_ready_of_embryo hembryo
  obtain ⟨rfl, rfl⟩ | ⟨rfl, page, rfl, -⟩ := allocOr_done hperf
  · exact h.entry hc hq (fun u => h.owner_unique hs hpre) rfl rfl rfl rfl
      rfl (by simp) (by simp [hparent]) hp rfl (by simp) (by simp)
  · refine h.entry hc hq (fun u => h.owner_unique hs hpre) rfl rfl rfl rfl
      (by simp [hembryo]) (fun _ => h.row (by simp [hembryo]))
      (by simp [hembryo]) hp rfl (by simp +contextual) ?_
    simp [hembryo, hparent]

theorem of_procInit (hp : Finishes p (KOp.next (.procInit q) () (G s)))
    (hpre : (G s).np = some (q, .stack)) :
    Inv { S.procInit q with code := update (S.procInit q).code s p }
      (update G s (KOp.next (.procInit q) () (G s))) := by
  have hs := h.running_active hc
  have hembryo := (h.owns hs).embryo hpre
  have hparent := (h.owns hs).parent hpre
  refine h.offstage hc (Entry.not_ready_of_embryo hembryo) (fun u => h.owner_unique hs hpre)
    (fun _ _ => rfl) (fun u hu => by simp [procInit, hu]) rfl
    (fun u hu => update_of_ne (fun huq => hu (by rw [huq])) _ _)
    (by simp [procInit, hembryo]) (fun t => ?_) h.row h.orphan hp rfl (by simp +contextual) ?_
  · by_cases ht : t = 0 <;> simp [procInit, ht]
  · simp [procInit, hembryo, hparent]

theorem of_forkFail {ch : Choice} (hperf : S.perform c s ch (.forkFail q) = some (.done () S'))
    (hp : Finishes p (KOp.next (.forkFail q) () (G s))) (hpre : (G s).np = some (q, .init)) :
    Inv { S' with code := update S'.code s p }
      (update G s (KOp.next (.forkFail q) () (G s))) := by
  have hs := h.running_active hc
  have hembryo := (h.owns hs).embryo hpre
  have hparent := (h.owns hs).parent hpre
  obtain ⟨page, rfl, -⟩ := forkFail_done hperf
  exact h.entry hc (Entry.not_ready_of_embryo hembryo) (fun u => h.owner_unique hs hpre)
    rfl rfl rfl rfl rfl (by simp) (by simp [hparent]) hp rfl
    (by simp) (by simp)

theorem of_forkThread (hp : Finishes p (KOp.next (.forkThread q) () (G s)))
    (hpre : (G s).np = some (q, .image)) :
    Inv { S.forkThread s q with code := update (S.forkThread s q).code s p }
      (update G s (KOp.next (.forkThread q) () (G s))) := by
  have hs := h.running_active hc
  have hembryo := (h.owns hs).embryo hpre
  have hq := Entry.not_ready_of_embryo hembryo
  have hcode := (h.owns hs).code hpre (by simp) (by simp)
  refine h.offstage hc hq (fun u => h.owner_unique hs hpre)
    (fun r hr => by simp [forkThread, Kernel.setProc, hr])
    (fun u hu => by simp [forkThread, hu]) rfl
    (fun _ _ => rfl) ?_ (fun t => ?_) (fun _ => ?_) ?_ hp rfl
    (by simp +contextual) ?_
  · simp [forkThread, Kernel.setProc, hembryo]
  · have hlive := h.not_live hq t
    by_cases ht : t = 0
    · simpa [forkThread, ht] using hlive
    · simp [forkThread, ht]
  · simpa [forkThread, Kernel.setProc] using h.row (p := q) (by simp [hembryo])
  · simp [forkThread, Kernel.setProc, hembryo]
  · simpa [forkThread, Kernel.setProc, hembryo] using hcode

end

/-! ## New threads -/

theorem newThread (h : Inv S G) (ht : Tables S') {u₀ : Slot} (hcode : S'.code u₀ = forkret)
    (hact : ∀ u, u ≠ u₀ → (S'.thread u).state.active = true →
      (S.thread u).state.active = true ∧ S'.code u = S.code u)
    (hown : ∀ u, u ≠ u₀ → (S'.thread u).state.active = true → Owns S' u (G u)) :
    Inv S' (update G u₀ .start) where
  toTables := ht
  safe {u} hu := by
    by_cases huu : u = u₀
    · subst huu
      rw [hcode, update_self]
      exact keeps_forkret
    · simpa [huu, (hact u huu hu).2] using h.safe (hact u huu hu).1
  owns {u} hu := by
    by_cases huu : u = u₀
    · subst huu
      simpa using Owns.of_idle rfl rfl
    · simpa [huu] using hown u huu hu
  npInj {u v q st st'} hu hv hgu hgv := by
    have hne : ∀ {w st}, (update G u₀ Ctx.start w).np = some (q, st) → w ≠ u₀ := by
      rintro w st hw rfl
      simp [Ctx.start] at hw
    have huu := hne hgu
    have hvv := hne hgv
    rw [update_of_ne huu] at hgu
    rw [update_of_ne hvv] at hgv
    exact h.npInj (hact u huu hu).1 (hact v hvv hv).1 hgu hgv
  ntInj {u v t b b'} hu hv huv hgu hgv := by
    have hne : ∀ {w b}, (update G u₀ Ctx.start w).nt = some (t, b) → w ≠ u₀ := by
      rintro w b hw rfl
      simp [Ctx.start] at hw
    have huu := hne hgu
    have hvv := hne hgv
    rw [update_of_ne huu] at hgu
    rw [update_of_ne hvv] at hgv
    exact h.ntInj (hact u huu hu).1 (hact v hvv hv).1 huv hgu hgv

end Inv

theorem Tables.publish (h : Tables S) (hq : (S.proc q).state = .embryo) :
    Tables ((S.setProc q fun e => { e with state := .runnable }).setThread (q, 0) fun t =>
      { t with state := .runnable }) := by
  have hnot := Entry.not_ready_of_embryo hq
  have hne : ∀ u : Slot, u.1 ≠ q → u ≠ (q, 0) := fun u hu huq => hu (by rw [huq])
  refine ⟨fun {c s} hc => ?_, fun hc hc' => h.alone hc hc', fun {s} hs => ?_, fun {p} hp => ?_,
    fun {p} hp => ?_, fun {p} hp => ?_⟩
  · rw [setThread_ne _ (hne s (h.ne_of_live hnot (h.running_live hc)))]
    exact h.running hc
  · by_cases hsq : s.1 = q
    · simp [hsq, Entry.isReady]
    · rw [setThread_ne _ (hne s hsq)] at hs
      simpa [hsq] using h.ready hs
  · by_cases hpq : p = q
    · subst hpq
      simpa using h.row (p := p) (by simp [hq])
    · simp only [setThread_proc, setProc_ne _ hpq] at hp ⊢
      exact h.row hp
  · by_cases hpq : p = q
    · subst hpq
      exact ⟨0, by simp⟩
    · simp only [setThread_proc, setProc_ne _ hpq] at hp
      obtain ⟨t, ht⟩ := h.peopled hp
      exact ⟨t, by rw [setThread_ne _ (hne _ hpq)]; exact ht⟩
  · by_cases hpq : p = q
    · subst hpq
      simp at hp
    · simp only [setThread_proc, setProc_ne _ hpq] at hp ⊢
      exact h.orphan hp

theorem Tables.setThread (h : Tables S) {u : Slot} {k : KThread}
    (hready : (S.proc u.1).isReady = true) (hrun : (S.thread u).state ≠ .running)
    (hk : k.state.live = true) (hproc : S'.proc = S.proc)
    (hthread : S'.thread = update S.thread u k) (hcpu : S'.cpu = S.cpu) : Tables S' := by
  have hne : ∀ w, w ≠ u → S'.thread w = S.thread w := fun w hw => by simp [hthread, hw]
  refine ⟨fun {c s} hc => ?_, fun hc hc' => ?_, fun {s} hs => ?_, fun {p} hp => ?_,
    fun {p} hp => ?_, fun {p} hp => ?_⟩
  · rw [hcpu] at hc
    rw [hne s fun hsu => hrun (hsu ▸ h.running hc)]
    exact h.running hc
  · rw [hcpu] at hc hc'
    exact h.alone hc hc'
  · rw [hproc]
    by_cases hsu : s = u
    · rw [hsu]
      exact hready
    · exact h.ready (hne s hsu ▸ hs)
  · rw [hproc] at hp ⊢
    exact h.row hp
  · rw [hproc] at hp
    obtain ⟨t, ht⟩ := h.peopled hp
    by_cases hsu : (p, t) = u
    · exact ⟨t, by simpa [hsu, hthread] using hk⟩
    · exact ⟨t, by rw [hne _ hsu]; exact ht⟩
  · rw [hproc] at hp ⊢
    exact h.orphan hp

namespace Inv

section

variable (h : Inv S G)
include h

theorem publish (hq : (S.proc q).state = .embryo)
    (hfree : ∀ u, (S.thread u).state.active = true → ∀ st, (G u).np ≠ some (q, st))
    (hcode : S.code (q, 0) = forkret) :
    Inv ((S.setProc q fun e => { e with state := .runnable }).setThread (q, 0) fun t =>
      { t with state := .runnable }) (update G (q, 0) .start) := by
  refine h.newThread (h.toTables.publish hq) hcode (fun u hu ha => ?_) fun u hu ha => ?_
  · rw [setThread_ne _ hu] at ha
    exact ⟨ha, rfl⟩
  · rw [setThread_ne _ hu] at ha
    have huq : u.1 ≠ q := h.ne_of_live (Entry.not_ready_of_embryo hq) (RunState.live_of_active ha)
    refine (h.owns ha).of_same (fun q' st hg => ?_) fun t b hg => ⟨?_, rfl⟩
    · have hq' : q' ≠ q := by
        rintro rfl
        exact hfree u ha st hg
      simp only [setThread_proc, setProc_ne _ hq']
      exact ⟨trivial, trivial, rfl⟩
    · rw [setThread_ne _ fun he => huq (congrArg Prod.fst he)]
      rfl

theorem publishThread {u₀ : Slot} (hu₀ : (S.thread u₀).state = .embryo)
    (hfree : ∀ u, (S.thread u).state.active = true → u.1 = u₀.1 → ∀ b, (G u).nt ≠ some (u₀.2, b))
    (hcode : S.code u₀ = forkret) :
    Inv (S.setThread u₀ fun t => { t with state := .runnable })
      (update G u₀ .start) := by
  have hready : (S.proc u₀.1).isReady = true := h.ready (by simp [hu₀])
  have ht : Tables (S.setThread u₀ fun t => { t with state := .runnable }) :=
    h.toTables.setThread hready (by simp [hu₀]) rfl rfl rfl rfl
  refine h.newThread ht hcode (fun u hu ha => ?_) fun u hu ha => ?_
  · rw [setThread_ne _ hu] at ha
    exact ⟨ha, rfl⟩
  · rw [setThread_ne _ hu] at ha
    refine (h.owns ha).of_same (fun q' st hg => ⟨rfl, rfl, rfl⟩) fun t b hg => ⟨?_, rfl⟩
    rw [setThread_ne]
    rintro rfl
    exact hfree u ha rfl b hg

theorem of_forkDone (hc : (S.cpu c).thread = some s) {ch : Choice} {r : Int32}
    (hperf : S.perform c s ch (.forkDone q) = some (.done r S'))
    (hp : Finishes p (KOp.next (.forkDone q) r (G s))) (hpre : (G s).np = some (q, .child)) :
    Inv { S' with code := update S'.code s p } (learn G s (.forkDone q) r) := by
  have hs := h.running_active hc
  have hown := h.owns hs
  -- first the thread lets go of the process, then the process is published
  have hlet : Inv { S with code := update S.code s p }
      (update G s (KOp.next (.forkDone q) r (G s))) :=
    h.goOn .of_eq hc hp
      ⟨by simp, by simp, by simp, hown.thread, hown.threadCode⟩ (by simp) fun _ b hg => ⟨b, hg⟩
  cases hperf
  refine hlet.publish (hown.embryo hpre) (fun u hu st hg => ?_) ?_
  · by_cases hus : u = s
    · subst hus
      simp at hg
    · rw [update_of_ne hus] at hg
      exact h.owner_unique hs hpre hus hu st hg
  · refine (update_of_ne ?_ _ _).trans (hown.code hpre (by simp) (by simp))
    rintro rfl
    exact hown.ne_first h.toTables (h.running_live hc) hpre rfl

theorem of_threadAlloc (hc : (S.cpu c).thread = some s)
    (hp : Finishes p (KOp.threadAlloc.next (S.threadAlloc s.1).1 (G s))) (hpre : (G s).nt = none) :
    Inv { (S.threadAlloc s.1).2 with code := update (S.threadAlloc s.1).2.code s p }
      (update G s (KOp.threadAlloc.next (S.threadAlloc s.1).1 (G s))) := by
  have hs := h.running_active hc
  have hown := h.owns hs
  unfold threadAlloc at hp ⊢
  split at hp
  · exact h.goOn' .of_eq hc hp rfl hpre.symm
  · rename_i t ht
    have hunused : (S.thread (s.1, t)).state = .unused := by simpa using first?_eq_some ht
    have hst : s ≠ (s.1, t) := by
      intro he
      rw [← he, h.running hc] at hunused
      cases hunused
    -- nobody has the slot in its hands
    have hfree : ∀ u, (S.thread u).state.active = true → u.1 = s.1 → ∀ b, (G u).nt ≠ some (t, b) := by
      intro u hu hus b hg
      have := (h.owns hu).thread hg
      rw [hus, hunused] at this
      cases this
    have hready := h.ready (h.running_live hc)
    have htab : Tables { S.setThread (s.1, t) fun k =>
        { k with state := .embryo, tid := S.nexttid } with nexttid := S.nexttid + 1 } :=
      h.toTables.setThread (u := (s.1, t)) hready (by simp [hunused]) rfl rfl rfl rfl
    refine h.advance htab ?_ (fun u hus hu => ?_) (fun u hus hu => ?_) hp ?_ (fun q st hg u hus hu st' => ?_) ?_
    · simpa [hst] using hs
    · refine ⟨?_, rfl⟩
      by_cases hut : u = (s.1, t)
      · simp [hut] at hu
      · simpa [hut] using hu
    · by_cases hut : u = (s.1, t)
      · simp [hut] at hu
      · have hau : (S.thread u).state.active = true := by simpa [hut] using hu
        refine (h.owns hau).of_same (fun _ _ _ => ⟨rfl, rfl, rfl⟩) fun t' b hg => ⟨?_, rfl⟩
        refine congrArg KThread.state (update_of_ne (fun he => ?_) _ _)
        rw [Prod.mk.injEq] at he
        exact hfree u hau he.1 b (he.2 ▸ hg)
    · refine ⟨hown.embryo, hown.parent, hown.code, fun {t' b} hg => ?_, by simp⟩
      obtain ⟨rfl, rfl⟩ : t = t' ∧ false = b := by simpa using hg
      simp
    · exact h.owner_unique hs hg hus hu st'
    · intro t' b hg u hus hu hu1 b'
      obtain ⟨rfl, rfl⟩ : t = t' ∧ false = b := by simpa using hg
      exact hfree u hu hu1 b'

theorem of_threadInit (hc : (S.cpu c).thread = some s) {t : TId} {size : ℕ}
    (hp : Finishes p (KOp.next (.threadInit t size) () (G s))) (hpre : (G s).nt = some (t, false)) :
    Inv { S.threadInit s.1 t size with
        code := update (S.threadInit s.1 t size).code s p }
      (update G s (KOp.next (.threadInit t size) () (G s))) := by
  have hs := h.running_active hc
  have hown := h.owns hs
  have hembryo := hown.thread hpre
  have hstate : ∀ u, ((S.threadInit s.1 t size).thread u).state = (S.thread u).state := by
    intro u
    by_cases hu : u = (s.1, t) <;> simp [threadInit, hu]
  have htab : Tables (S.threadInit s.1 t size) := h.toTables.of_same rfl hstate fun _ => rfl
  have hcode : ∀ u, (S.thread u).state.active = true →
      (S.threadInit s.1 t size).code u = S.code u := by
    intro u hu
    refine update_of_ne ?_ _ _
    rintro rfl
    simp [hembryo] at hu
  have hfirst : ∀ u q st, (S.thread u).state.active = true → (G u).np = some (q, st) →
      (S.threadInit s.1 t size).code (q, 0) = S.code (q, 0) := by
    intro u q st hu hg
    refine update_of_ne (fun he => ?_) _ _
    exact (h.owns hu).ne_first h.toTables (h.running_live hc) hg (congrArg Prod.fst he).symm
  refine h.advance htab (hstate s ▸ hs) (fun u hus hu => ?_) (fun u hus hu => ?_) hp ?_
    (fun q st hg u hus hu st' => ?_) (fun t' b hg u hus hu hu1 b' hgu => ?_)
  · rw [hstate] at hu
    exact ⟨hu, hcode u hu⟩
  · rw [hstate] at hu
    refine (h.owns hu).of_same (fun q st hg => ⟨rfl, rfl, hfirst u q st hu hg⟩)
      fun t' b hg => ⟨hstate _, update_of_ne (fun he => ?_) _ _⟩
    rw [Prod.mk.injEq] at he
    exact hus (h.ntInj hu hs he.1 (he.2 ▸ hg) hpre)
  · refine ⟨hown.embryo, hown.parent, fun {q st} hg h₁ h₂ => ?_, fun {t' b} hg => ?_,
      fun {t'} hg => ?_⟩
    · exact (hfirst s q st hs hg).trans (hown.code hg h₁ h₂)
    · obtain ⟨rfl, rfl⟩ : t = t' ∧ true = b := by simpa using hg
      exact (hstate _).trans hembryo
    · obtain rfl : t = t' := by simpa using hg
      simp [threadInit]
  · exact h.owner_unique hs hg hus hu st'
  · obtain ⟨rfl, rfl⟩ : t = t' ∧ true = b := by simpa using hg
    exact hus (h.ntInj hu hs hu1 hgu hpre)

theorem of_threadReady (hc : (S.cpu c).thread = some s) {t : TId} {ch : Choice} {r : Int32}
    (hperf : S.perform c s ch (.threadReady t) = some (.done r S'))
    (hp : Finishes p (KOp.next (.threadReady t) r (G s))) (hpre : (G s).nt = some (t, true)) :
    Inv { S' with code := update S'.code s p } (learn G s (.threadReady t) r) := by
  have hs := h.running_active hc
  have hown := h.owns hs
  have hembryo := hown.thread hpre
  have hlet : Inv { S with code := update S.code s p }
      (update G s (KOp.next (.threadReady t) r (G s))) :=
    h.goOn .of_eq hc hp
      ⟨hown.embryo, hown.parent, hown.code, by simp, by simp⟩ (fun _ st hg => ⟨st, hg⟩) (by simp)
  cases hperf
  refine hlet.publishThread hembryo (fun u hu hu1 b hg => ?_) ?_
  · by_cases hus : u = s
    · subst hus
      simp at hg
    · rw [update_of_ne hus] at hg
      exact hus (h.ntInj hu hs hu1 hg hpre)
  · refine (update_of_ne (fun he => ?_) _ _).trans (hown.threadCode hpre)
    rw [he, h.running hc] at hembryo
    cases hembryo

end

end Inv

end Xv6.Proc
