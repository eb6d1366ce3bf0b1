import Xv6.Proc.LifecycleSteps

/-!
# What operations leave alone in the tables

The life cycle of processes and threads is one thing that an operation can change; what is
written into the slots and entries besides is another.  `Marks` says once, for all
operations, who may change what: an answered operation writes no channel, only
`kthread_create` and `kthread_join` write an identifier, only `fork` and `exec` a page
directory, only `fork` and `wait` the identifier of a process, and only `wait` forgets that a
process was killed; and `page_of_done` says in which ways a page can change hands.

The second half of the file sharpens `Inv.thread_of_done` for threads of processes that are
ready (`Turn`): such a thread is woken up, or started by the thread that created it, or its
slot is taken by `kthread_create`; otherwise its state does not change.
-/

namespace Xv6.Proc

open Function Transition Kernel

variable {ncpu : ℕ} {S S' S₁ : Kernel ncpu} {G : Slot → Ctx} {c : Fin ncpu} {s : Slot}
  {ch : Choice} {e : KOp} {k : e.Ans → KProg Unit} {r : e.Ans}

/-- The operations that leave the identifiers of threads alone. -/
@[simp] def KOp.keepsTids : KOp → Bool
  | .threadAlloc | .threadJoin _ => false
  | _ => true

/-- The operations that leave page directories alone. -/
@[simp] def KOp.keepsPgdirs : KOp → Bool
  | .copyuvm _ | .setPgdir _ => false
  | _ => true

/-- The operations that leave the kernel stacks of processes alone. -/
@[simp] def KOp.keepsKstacks : KOp → Bool
  | .stackAlloc _ | .forkFail _ | .wait => false
  | _ => true

/-- The operations that leave the pages alone. -/
@[simp] def KOp.keepsPages : KOp → Bool
  | .stackAlloc _ | .copyuvm _ | .forkFail _ | .wait | .setupkvm | .allocuvm _ | .deallocuvm _
  | .freevm _ | .pipeAlloc | .pipeFree => false
  | _ => true

/-- The operations that leave the identifiers of processes alone. -/
@[simp] def KOp.keepsPids : KOp → Bool
  | .procAlloc | .wait => false
  | _ => true

/-- What operation `e` leaves alone on the way from `S` to `S'`. -/
structure Marks (e : KOp) (S S' : Kernel ncpu) : Prop where
  initproc : S'.initproc = S.initproc
  chan : ∀ u, (S'.thread u).chan = (S.thread u).chan
  tid : e.keepsTids = true → ∀ u, (S'.thread u).tid = (S.thread u).tid
  nexttid : e ≠ .threadAlloc → S'.nexttid = S.nexttid
  killed : ∀ p, (S.proc p).state ≠ .zombie → (S.proc p).killed = true → (S'.proc p).killed = true
  pgdir : e.keepsPgdirs = true → ∀ p, (S'.proc p).pgdir = (S.proc p).pgdir
  kstack : e.keepsKstacks = true → ∀ p, (S'.proc p).kstack = (S.proc p).kstack
  page : e.keepsPages = true → S'.page = S.page
  cr3 : e ≠ .switchuvm → ∀ c, (S'.cpu c).cr3 = (S.cpu c).cr3
  pid : e.keepsPids = true → ∀ p, (S'.proc p).pid = (S.proc p).pid
  nextpid : e ≠ .procAlloc → S'.nextpid = S.nextpid

theorem wakeup1_chan (S : Kernel ncpu) (chan : Chan) (u : Slot) :
    ((S.wakeup1 chan).thread u).chan = (S.thread u).chan := by
  simp only [wakeup1, wake]
  split_ifs <;> rfl

theorem wakeup1_tid (S : Kernel ncpu) (chan : Chan) (u : Slot) :
    ((S.wakeup1 chan).thread u).tid = (S.thread u).tid := by
  simp only [wakeup1, wake]
  split_ifs <;> rfl

namespace Marks

variable {e : KOp}

theorem of_eq (hi : S'.initproc = S.initproc := by rfl) (ht : S'.thread = S.thread := by rfl)
    (hp : S'.proc = S.proc := by rfl) (hn : S'.nexttid = S.nexttid := by rfl)
    (hm : S'.nextpid = S.nextpid := by rfl) (hc : S'.cpu = S.cpu := by rfl)
    (hg : e.keepsPages = true → S'.page = S.page := by simp) : Marks e S S' :=
  ⟨hi, fun u => by rw [ht], fun _ u => by rw [ht], fun _ => hn, fun p _ hk => by rwa [hp],
    fun _ p => by rw [hp], fun _ p => by rw [hp], hg, fun _ c => by rw [hc],
    fun _ p => by rw [hp], fun _ => hm⟩

theorem refl (e : KOp) (S : Kernel ncpu) : Marks e S S := of_eq

theorem setProc (h : Marks e S S₁) (p : PId) {f : Entry → Entry}
    (hk : (S.proc p).state ≠ .zombie → (S₁.proc p).killed = true →
      (f (S₁.proc p)).killed = true := by simp)
    (hd : e.keepsPgdirs = true → (f (S₁.proc p)).pgdir = (S₁.proc p).pgdir := by simp)
    (hs : e.keepsKstacks = true → (f (S₁.proc p)).kstack = (S₁.proc p).kstack := by simp)
    (hm : e.keepsPids = true → (f (S₁.proc p)).pid = (S₁.proc p).pid := by simp) :
    Marks e S (S₁.setProc p f) := by
  refine ⟨h.initproc, h.chan, h.tid, h.nexttid, fun q hz hq => ?_, fun he q => ?_, fun he q => ?_,
    h.page, h.cr3, fun he q => ?_, h.nextpid⟩ <;> by_cases hqp : q = p
  · subst hqp
    rw [setProc_self]
    exact hk hz (h.killed q hz hq)
  · rw [setProc_ne _ hqp]
    exact h.killed q hz hq
  · subst hqp
    rw [setProc_self, hd he, h.pgdir he]
  · rw [setProc_ne _ hqp, h.pgdir he]
  · subst hqp
    rw [setProc_self, hs he, h.kstack he]
  · rw [setProc_ne _ hqp, h.kstack he]
  · subst hqp
    rw [setProc_self, hm he, h.pid he]
  · rw [setProc_ne _ hqp, h.pid he]

theorem threads (h : Marks e S S₁) (ht : ∀ u, (S'.thread u).chan = (S₁.thread u).chan ∧
      (e.keepsTids = true → (S'.thread u).tid = (S₁.thread u).tid))
    (hn : e ≠ .threadAlloc → S'.nexttid = S₁.nexttid := by exact fun _ => rfl)
    (hi : S'.initproc = S₁.initproc := by rfl) (hp : S'.proc = S₁.proc := by rfl)
    (hm : S'.nextpid = S₁.nextpid := by rfl) (hc : S'.cpu = S₁.cpu := by rfl)
    (hg : S'.page = S₁.page := by rfl) : Marks e S S' :=
  ⟨hi.trans h.initproc, fun u => (ht u).1.trans (h.chan u),
    fun he u => ((ht u).2 he).trans (h.tid he u), fun he => (hn he).trans (h.nexttid he),
    fun p hz hk => by rw [hp]; exact h.killed p hz hk, fun he p => by rw [hp, h.pgdir he],
    fun he p => by rw [hp, h.kstack he], fun he => by rw [hg, h.page he],
    fun he c => by rw [hc, h.cr3 he], fun he p => by rw [hp, h.pid he],
    fun he => hm.trans (h.nextpid he)⟩

theorem setThread (h : Marks e S S₁) (v : Slot) {f : KThread → KThread}
    (hchan : ∀ t, (f t).chan = t.chan := by simp)
    (htid : e.keepsTids = true → ∀ t, (f t).tid = t.tid := by simp) :
    Marks e S (S₁.setThread v f) := by
  refine h.threads fun u => ?_
  by_cases hu : u = v
  · subst hu
    rw [setThread_self]
    exact ⟨hchan _, fun he => htid he _⟩
  · rw [setThread_ne S₁ hu]
    exact ⟨rfl, fun _ => rfl⟩

theorem wakeup1 (h : Marks e S S₁) (chan : Chan) : Marks e S (S₁.wakeup1 chan) :=
  h.threads fun u =>
    ⟨wakeup1_chan S₁ chan u, fun _ => wakeup1_tid S₁ chan u⟩

end Marks

theorem marks_of_done (hperf : S.perform c s ch e = some (.done r S')) : Marks e S S' := by
  cases e with
  | stackAlloc | copyuvm | pipeAlloc =>
    obtain ⟨-, rfl⟩ | ⟨-, page, rfl, -⟩ := allocOr_done hperf
    all_goals first
      | exact .of_eq
      | exact .setProc (.refl _ _) _
      | exact .setProc .of_eq _
  | procAlloc =>
    cases hperf
    unfold procAlloc
    split
    · exact .refl _ _
    · have hset := Marks.setProc (.refl .procAlloc S) ‹PId›
        (f := fun e => { e with state := .embryo, threads := true, pid := S.nextpid })
      exact ⟨rfl, hset.chan, hset.tid, fun _ => rfl, hset.killed, hset.pgdir, hset.kstack,
        hset.page, hset.cr3, fun he => absurd he (by simp), fun he => absurd rfl he⟩
  | procInit q =>
    cases hperf
    refine .threads (.refl _ S) fun u => ?_
    simp only [procInit]
    split_ifs <;> exact ⟨rfl, fun _ => rfl⟩
  | forkFail q =>
    obtain ⟨page, rfl, -⟩ := forkFail_done hperf
    exact .setProc .of_eq _
  | forkThread q =>
    cases hperf
    refine .threads (.setProc (.refl _ S) q (f := fun e => { e with parent := some s.1 }))
      fun u => ?_
    simp only [Kernel.forkThread, setProc_thread]
    split_ifs <;> exact ⟨rfl, fun _ => rfl⟩
  | forkDone q =>
    cases hperf
    exact .setThread (.setProc (.refl _ _) _) _
  | forkFile q fd =>
    cases hperf
    refine .setProc (.refl _ _) _ (fun _ hk => ?_) (fun _ => ?_) (fun _ => ?_) fun _ => ?_
    · split <;> exact hk
    · split <;> rfl
    · split <;> rfl
    · split <;> rfl
  | threadReady t | setTf =>
    cases hperf
    exact .setThread (.refl _ _) _
  | threadInit t size =>
    cases hperf
    refine .threads (.refl _ S) fun u => ?_
    by_cases hut : u = (s.1, t) <;> simp [threadInit, hut]
  | threadAlloc =>
    cases (withRow_done hperf).2
    unfold threadAlloc
    split
    · exact .refl _ _
    · refine .threads (.refl _ S) (fun u => ?_) fun he => absurd rfl he
      by_cases hut : u = (s.1, ‹TId›) <;> simp [hut]
  | threadExit =>
    obtain ⟨-, hperf⟩ := withRow_done hperf
    split at hperf
    · cases hperf
      exact .setProc (.setThread (.refl _ _) _) _
    · cases hperf
  | threadJoin tid =>
    obtain ⟨-, hperf⟩ := withRow_done hperf
    split at hperf
    · cases hperf
      exact .setThread (.refl _ _) _
    · cases hperf
      exact .refl _ _
    · split at hperf
      · cases hperf
        exact .refl _ _
      · cases hperf
  | exitDone => exact r.elim
  | wait =>
    obtain ⟨q, page, -, -, -, -, hz, rfl⟩ | ⟨-, -, -, rfl⟩ := wait_cases hperf
    · exact .setProc .of_eq _ fun hne => absurd hz hne
    · exact .refl _ _
  | kill pid =>
    cases hperf
    unfold kill
    split
    · exact .refl _ _
    · refine .threads (.setProc (.refl _ S) ‹PId› (f := fun e => { e with killed := true }))
        fun u => ?_
      dsimp only [setProc_thread]
      split_ifs <;> exact ⟨rfl, fun _ => rfl⟩
  | setupkvm =>
    simp only [perform] at hperf
    split at hperf
    · cases hperf
      exact .refl _ _
    · obtain ⟨S₁, hk, hperf⟩ := Option.map_eq_some_iff.mp hperf
      obtain ⟨page, rfl, -⟩ := kalloc_eq hk
      cases hperf
      exact .of_eq
  | allocuvm =>
    simp only [perform] at hperf
    split at hperf
    · obtain ⟨S₁, hk, hperf⟩ := Option.map_eq_some_iff.mp hperf
      obtain ⟨page, rfl, -⟩ := kalloc_eq hk
      cases hperf
      exact .of_eq
    · cases hperf
      exact .refl _ _
  | freevm =>
    simp only [perform] at hperf
    split at hperf
    · cases hperf
    · rename_i hf
      obtain ⟨page, rfl, -⟩ := freevm_eq hf
      cases hperf
      exact .of_eq
  | deallocuvm | pipeFree =>
    simp only [perform] at hperf
    split at hperf
    · cases hperf
      exact .of_eq
    · cases hperf
  | switchuvm =>
    simp only [perform] at hperf
    split at hperf
    · cases hperf
    · cases hperf
      exact ⟨rfl, fun _ => rfl, fun _ _ => rfl, fun _ => rfl, fun _ _ hk => hk, fun _ _ => rfl,
        fun _ _ => rfl, fun _ => rfl, fun he => absurd rfl he, fun _ _ => rfl, fun _ => rfl⟩
  | setKilled | setPgdir | setOfile | setCwd =>
    cases hperf
    exact .setProc (.refl _ _) _
  | forkCwd =>
    simp only [perform] at hperf
    split at hperf
    · cases hperf
    · cases hperf
      exact .setProc (.refl _ _) _
  | wakeup | commitEnd =>
    cases hperf
    exact .wakeup1 .of_eq _
  | _ =>
    simp only [perform] at hperf
    repeat' split at hperf
    all_goals cases hperf
    all_goals first
      | exact .of_eq
      | exact .wakeup1 .of_eq _

theorem wait_frees {r : Int32} (hperf : S.perform c s ch .wait = some (.done r S')) {n : ℕ}
    (hn : S'.page n ≠ S.page n) :
    ∃ q, (S.proc q).state = .zombie ∧ (S'.proc q).state = .unused ∧
      ((S.proc q).kstack = n * kstacksize ∨ S.page n = .vm (S.proc q).pgdir) := by
  obtain ⟨q, page, -, -, hr, -, hz, -⟩ | ⟨-, -, -, rfl⟩ := wait_cases hperf
  · simp only [reap, kfree, freevm] at hr
    split_ifs at hr with hk hd
    cases hr
    refine ⟨q, hz, by simp, ?_⟩
    simp only [Kernel.setProc, update_apply, ne_eq] at hn
    by_cases hnk : n = (S.proc q).kstack / kstacksize
    · refine .inl ?_
      rw [hnk, Nat.div_mul_cancel (Nat.dvd_of_mod_eq_zero hk.1)]
    · refine .inr ?_
      by_contra hvm
      simp [hnk, hvm] at hn
  · exact absurd rfl hn

/-- The ways in which an operation can change a page. -/
inductive PageChange (S S' : Kernel ncpu) (e : KOp) (n : ℕ) : Prop where
  | allocated (h : S.page n = .free)
  | pipe (h : S.page n = .pipe)
  /-- `deallocuvm` takes it, which leaves the page directory. -/
  | shrunk (d : ℕ) (h : S.page n = .vm d) (hn : n ≠ d)
  | freed (d : ℕ) (he : e = .freevm d) (h : S.page n = .vm d)
  /-- It was the kernel stack of a process that `fork` gave up. -/
  | failed (q : PId) (he : e = .forkFail q) (hq : (S'.proc q).state = .unused)
      (h : (S.proc q).kstack = n * kstacksize)
  | reaped (z : PId) (hz : (S.proc z).state = .zombie) (hz' : (S'.proc z).state = .unused)
      (h : S.page n = .vm (S.proc z).pgdir ∨ (S.proc z).kstack = n * kstacksize)

/-- **Who changes a page.** -/
theorem page_of_done (hperf : S.perform c s ch e = some (.done r S')) (n : ℕ) :
    S'.page n = S.page n ∨ PageChange S S' e n := by
  have halloc : ∀ {qs u page}, S.kalloc qs u = some { S with page := page } →
      page n = S.page n ∨ PageChange S S' e n := by
    intro qs u page hk
    obtain ⟨_, heq, hpage⟩ := kalloc_eq hk
    cases heq
    by_cases hn : S.page n = .free
    · exact .inr (.allocated hn)
    · exact .inl (hpage n hn)
  by_cases he : e.keepsPages = true
  · exact .inl (by rw [(marks_of_done hperf).page he])
  cases e with
  | stackAlloc | copyuvm | pipeAlloc =>
    obtain ⟨-, rfl⟩ | ⟨-, page, rfl, hk⟩ := allocOr_done hperf
    · exact .inl rfl
    · exact halloc hk
  | forkFail q =>
    obtain ⟨page, rfl, hpage⟩ := forkFail_done hperf
    by_cases hn : (S.proc q).kstack = n * kstacksize
    · exact .inr (.failed q rfl (by simp) hn)
    · exact .inl (hpage n (.inl hn))
  | wait =>
    by_cases hn : S'.page n = S.page n
    · exact .inl hn
    · obtain ⟨z, hz, hz', h | h⟩ := wait_frees hperf hn
      · exact .inr (.reaped z hz hz' (.inr h))
      · exact .inr (.reaped z hz hz' (.inl h))
  | setupkvm =>
    simp only [perform] at hperf
    split at hperf
    · cases hperf
      exact .inl rfl
    · obtain ⟨S₁, hk, hperf⟩ := Option.map_eq_some_iff.mp hperf
      obtain ⟨page, rfl, -⟩ := kalloc_eq hk
      cases hperf
      exact halloc hk
  | allocuvm =>
    simp only [perform] at hperf
    split at hperf
    · obtain ⟨S₁, hk, hperf⟩ := Option.map_eq_some_iff.mp hperf
      obtain ⟨page, rfl, -⟩ := kalloc_eq hk
      cases hperf
      exact halloc hk
    · cases hperf
      exact .inl rfl
  | deallocuvm d =>
    simp only [perform] at hperf
    split at hperf
    · rename_i hvm
      cases hperf
      by_cases hn : n ∈ ch.pages
      · exact .inr (.shrunk d (hvm n hn).1 (hvm n hn).2)
      · exact .inl (if_neg hn)
    · cases hperf
  | freevm d =>
    simp only [perform] at hperf
    split at hperf
    · cases hperf
    · rename_i hf
      obtain ⟨page, rfl, hpage⟩ := freevm_eq hf
      cases hperf
      by_cases hn : S.page n = .vm d
      · exact .inr (.freed d rfl hn)
      · exact .inl (hpage n hn)
  | pipeFree =>
    simp only [perform] at hperf
    split at hperf
    · rename_i hpipe
      cases hperf
      by_cases hn : n = ch.n
      · exact .inr (.pipe (by rw [hn]; exact hpipe))
      · exact .inl (update_of_ne hn _ _)
    · cases hperf
  | _ => exact absurd rfl he

/-- What happens to a thread of a ready process when thread `s` performs operation `e`. -/
inductive Turn (S S' : Kernel ncpu) (s : Slot) (e : KOp) (u : Slot) : Prop where
  | same (h : (S'.thread u).state = (S.thread u).state)
  | woken (h : (S.thread u).state = .sleeping) (h' : (S'.thread u).state = .runnable)
  | started (he : e = .threadReady u.2) (hu : u.1 = s.1) (h : (S.thread u).state = .embryo)
      (h' : (S'.thread u).state = .runnable)
  | taken (he : e = .threadAlloc) (hu : u.1 = s.1) (ht : (S.threadAlloc s.1).1 = some u.2)
      (h : (S.thread u).state = .unused) (h' : (S'.thread u).state = .embryo)

theorem Answered.turn (ha : Answered S S' G c s ch e k r) {u : Slot}
    (hu : (S.proc u.1).isReady = true) : Turn S S' s e u := by
  have hperf := ha.perf
  have hpre := ha.pre
  have hown := ha.owns
  have hoff : ∀ {q st}, (G s).np = some (q, st) → u.1 ≠ q := by
    rintro q st hg rfl
    simp [Entry.isReady, hown.embryo hg] at hu
  by_cases hq : e.quiet = true
  · obtain hs | ⟨hs, hs'⟩ := ((perform_frame hperf).quiet hq).thread u
    · exact .same hs
    · exact .woken hs hs'
  cases e with
  | procAlloc =>
    cases hperf
    unfold procAlloc
    split <;> exact .same rfl
  | stackAlloc q =>
    obtain ⟨rfl, rfl⟩ | ⟨rfl, page, rfl, -⟩ := allocOr_done hperf <;> exact .same rfl
  | procInit q =>
    cases hperf
    exact .same (by simp [procInit, hoff hpre])
  | forkFail q =>
    obtain ⟨page, rfl, -⟩ := forkFail_done hperf
    exact .same rfl
  | forkThread q =>
    cases hperf
    exact .same (by simp [Kernel.forkThread, hoff hpre])
  | forkDone q =>
    cases hperf
    refine .same ?_
    rw [setThread_ne _ fun he => hoff hpre (congrArg Prod.fst he)]
    rfl
  | threadAlloc =>
    cases (withRow_done hperf).2
    by_cases ht : u.1 = s.1 ∧ (S.threadAlloc s.1).1 = some u.2
    · obtain ⟨hus, ht⟩ := ht
      refine .taken rfl hus ht ?_ ?_
      · unfold threadAlloc at ht
        split at ht
        · cases ht
        · rename_i t hf
          cases ht
          rw [show u = (s.1, u.2) from Prod.ext hus rfl]
          simpa using first?_eq_some hf
      · unfold threadAlloc at ht ⊢
        split at ht
        · cases ht
        · cases ht
          rw [show u = (s.1, u.2) from Prod.ext hus rfl]
          simp
    · refine .same ?_
      unfold threadAlloc at ht ⊢
      split
      · rfl
      · rename_i t hf
        have hne : u ≠ (s.1, t) := by
          rintro rfl
          exact ht ⟨rfl, by rw [hf]⟩
        simp [hne]
  | threadInit t size =>
    cases hperf
    by_cases hut : u = (s.1, t) <;> exact .same (by simp [threadInit, hut])
  | threadReady t =>
    cases hperf
    by_cases hut : u = (s.1, t)
    · subst hut
      exact .started rfl rfl (hown.thread hpre) (by simp)
    · exact .same (by simp [hut])
  | threadExit => exact ha.not_last.elim
  | exitDone => exact r.elim
  | wait =>
    obtain ⟨q, page, -, -, -, -, -, rfl⟩ | ⟨-, -, -, rfl⟩ := wait_cases hperf <;> exact .same rfl
  | _ => exact absurd rfl hq

theorem Answered.code_kept (ha : Answered S S' G c s ch e k r) {u : Slot}
    (hu : (S.thread u).state.active = true) : S'.code u = S.code u := by
  have hperf := ha.perf
  have hpre := ha.pre
  have hown := ha.owns
  by_cases hq : e.quiet = true
  · rw [((perform_frame hperf).quiet hq).code]
  cases e with
  | procAlloc =>
    cases hperf
    unfold procAlloc
    split <;> rfl
  | stackAlloc q =>
    obtain ⟨rfl, rfl⟩ | ⟨rfl, page, rfl, -⟩ := allocOr_done hperf <;> rfl
  | procInit q =>
    cases hperf
    refine update_of_ne ?_ _ _
    rintro rfl
    exact hown.ne_first ha.inv.toTables (RunState.live_of_active hu) hpre rfl
  | forkFail q =>
    obtain ⟨page, rfl, -⟩ := forkFail_done hperf
    rfl
  | threadAlloc =>
    cases (withRow_done hperf).2
    unfold threadAlloc
    split <;> rfl
  | threadInit t size =>
    cases hperf
    refine update_of_ne ?_ _ _
    rintro rfl
    simp [hown.thread hpre] at hu
  | forkThread | forkDone | threadReady =>
    cases hperf
    rfl
  | threadExit =>
    obtain ⟨-, hperf⟩ := withRow_done hperf
    split at hperf <;> cases hperf
    rfl
  | exitDone => exact r.elim
  | wait =>
    obtain ⟨q, page, -, -, -, -, -, rfl⟩ | ⟨-, -, -, rfl⟩ := wait_cases hperf <;> rfl
  | _ => exact absurd rfl hq

theorem Answered.ready (ha : Answered S S' G c s ch e k r) {p : PId}
    (hp : (S.proc p).isReady = true) : (S'.proc p).isReady = true := by
  obtain hsame | ⟨hs, -⟩ | ⟨hs, -⟩ | ⟨hs, -⟩ := ha.entry p
  · rw [Entry.isReady_congr hsame]
    exact hp
  · simp [Entry.isReady, hs] at hp
  · simp [Entry.isReady, hs] at hp
  · simp [Entry.isReady, hs] at hp

end Xv6.Proc
