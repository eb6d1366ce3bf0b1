import Xv6.Proc.LifecycleSteps

/-!
# Kernel stacks

A thread in the kernel runs on a page that `kalloc` has handed out; its trap frame and its
saved registers are there, and a trap from user space starts at the top of it.  The thread
records the page in `kstack`.  `OwnStacks` says so for all threads that have been set up.

The first process keeps to it as long as it is alone.  The two ways not to be alone both
break it: `fork` records the parent's page in the child's first thread
(`forkDone_shares`), and `kthread_create` does not allocate a page at all, so that the new
thread's trap frame is where its null `kstack` points (`threadInit_has_no_page`).  So the
condition on steps is just that neither of the two is taken.
-/

namespace Xv6.Proc

open Function Transition Kernel

variable {ncpu : ℕ} {S S' : Kernel ncpu} {c : Fin ncpu} {s : Slot} {g : Ctx} {n : ℕ}

/-- The `size` bytes at `a` are in the page that starts at `base`. -/
def InPage (base a size : ℕ) : Prop := base ≤ a ∧ a + size ≤ base + kstacksize

/-- The thread is `RUNNABLE`, `RUNNING` or `SLEEPING`, or it is `EMBRYO` and `kthread_create`
has come to `t->parent = proc`, where its set-up ends. -/
def Kernel.setUp (S : Kernel ncpu) (s : Slot) : Bool :=
  (S.thread s).state.active || (S.thread s).state == .embryo && (S.thread s).parent.isSome

/-- **Every thread has its own kernel stack.** -/
structure OwnStacks (S : Kernel ncpu) : Prop where
  /-- The stack is a page that has been handed out, and the thread's data is on it. -/
  page : ∀ s, S.setUp s = true → ∃ n, (S.thread s).kstack = n * kstacksize ∧
    (S.page n).allocated = true ∧
    InPage (S.thread s).kstack (S.thread s).tf trapframeSize ∧
    InPage (S.thread s).kstack (S.thread s).context contextSize
  distinct : ∀ s u, S.setUp s = true → S.setUp u = true →
    (S.thread s).kstack = (S.thread u).kstack → s = u
  /-- A trap from user space starts at its top. -/
  esp0 : ∀ c s, (S.cpu c).thread = some s → S.setUp s = true →
    (S.cpu c).esp0 = (S.thread s).kstack + kstacksize

/-- Test for `Solo`. -/
def Kernel.solo (S : Kernel ncpu) : Act ncpu → Bool
  | .run c _ =>
    match S.nextOp c with
    | some (_, .forkDone _) => false
    | some (_, .threadInit _ _) => false
    | _ => true
  | _ => true

/-- The steps in which `fork` does not finish a child and `kthread_create` does not set up
a thread. -/
def Solo (S : Kernel ncpu) (a : Act ncpu) : Prop := S.solo a = true

instance (S : Kernel ncpu) (a : Act ncpu) : Decidable (Solo S a) :=
  inferInstanceAs (Decidable (S.solo a = true))

/-- The first thread of the first process is alone, on the stack in page `n`, and knows `g`. -/
structure Lone (S : Kernel ncpu) (n : ℕ) (g : Ctx) : Prop where
  initproc : S.initproc = 0
  first : (S.thread (0, 0)).state ≠ .unused ∧ (S.thread (0, 0)).state ≠ .embryo
  off : ∀ {u}, u ≠ (0, 0) → (S.thread u).state.active = false
  embryo : ∀ {u}, (S.thread u).state = .embryo → u.1 = 0 ∧ g.nt = some (u.2, false)
  blank : ∀ {t}, t ≠ 0 → (S.thread (0, t)).parent = none ∧ (S.thread (0, t)).kstack = 0
  kstack : (S.thread (0, 0)).kstack = n * kstacksize
  tf : InPage (n * kstacksize) (S.thread (0, 0)).tf trapframeSize
  context : InPage (n * kstacksize) (S.thread (0, 0)).context contextSize
  page : S.page n = .stack 0
  page0 : S.page 0 = .reserved
  proc : (S.proc 0).kstack = n * kstacksize
  used : (S.proc 0).state ≠ .unused
  orphan : (S.proc 0).parent = none
  others : ∀ {q}, q ≠ 0 → (S.proc q).kstack ≠ n * kstacksize ∧ (S.proc q).state ≠ .zombie
  cpu : ∀ {c s}, (S.cpu c).thread = some s → s = (0, 0) ∧
    (S.cpu c).esp0 = n * kstacksize + kstacksize ∧ (S.cpu c).ktop = n * kstacksize + kstacksize
  safe : Finishes (S.code (0, 0)) g
  closing : g.closing = none
  nt : ∀ {t b}, g.nt = some (t, b) → b = false ∧ (S.thread (0, t)).state = .embryo
  np : ∀ {q st}, g.np = some (q, st) → q ≠ 0
  child : ∀ {q}, g.np = some (q, .child) → (S.thread (q, 0)).kstack = n * kstacksize

namespace Lone

theorem eq_first (h : Lone S n g) (hs : S.setUp s = true) : s = (0, 0) := by
  by_contra hne
  have hoff := h.off hne
  simp only [setUp, hoff, Bool.false_or, Bool.and_eq_true, beq_iff_eq] at hs
  obtain ⟨p, t⟩ := s
  obtain rfl : p = 0 := (h.embryo hs.1).1
  have ht : t ≠ 0 := fun ht => hne (by rw [ht])
  rw [(h.blank ht).1] at hs
  exact Bool.false_ne_true hs.2

theorem ownStacks (h : Lone S n g) : OwnStacks S where
  page s hs := by
    rw [h.eq_first hs, h.kstack]
    exact ⟨n, rfl, by rw [h.page]; rfl, h.tf, h.context⟩
  distinct s u hs hu _ := by rw [h.eq_first hs, h.eq_first hu]
  esp0 c s hc hs := by
    rw [h.eq_first hs, h.kstack]
    exact (h.cpu hc).2.1

theorem same (h : Lone S n g) (hq : Quiet S S') (hs : SameStacks S S') : Lone S' n g where
  initproc := hs.initproc.trans h.initproc
  first := by
    obtain hst | ⟨-, hst⟩ := hq.thread (0, 0)
    · rw [hst]
      exact h.first
    · simp [hst]
  off hu := (hq.active_eq _).trans (h.off hu)
  embryo {u} hu := by
    obtain hst | ⟨-, hst⟩ := hq.thread u
    · exact h.embryo (hst.symm.trans hu)
    · rw [hst] at hu
      cases hu
  blank {t} ht := by
    obtain ⟨hp, hk⟩ := h.blank ht
    refine ⟨?_, (hs.kstack _).trans hk⟩
    obtain hpar | hpar := hs.parent (0, t)
    · exact hpar.trans hp
    · exact hpar
  kstack := (hs.kstack _).trans h.kstack
  tf := by
    rw [hs.tf]
    exact h.tf
  context := by
    rw [hs.context]
    exact h.context
  page := (hs.page n (.inr ⟨0, h.page⟩)).trans h.page
  page0 := (hs.page 0 (.inl h.page0)).trans h.page0
  proc := (hs.proc 0).trans h.proc
  used := by
    rw [hq.state]
    exact h.used
  orphan := (hq.parent 0).trans h.orphan
  others hp := by
    rw [hs.proc, hq.state]
    exact h.others hp
  cpu hc := by
    rw [hs.esp0, hs.ktop]
    exact h.cpu ((hq.cpu _).symm.trans hc)
  safe := by
    rw [hq.code]
    exact h.safe
  closing := h.closing
  nt hg := by
    obtain ⟨hb, hst⟩ := h.nt hg
    exact ⟨hb, (hq.eq_of_ne_sleeping (by simp [hst])).trans hst⟩
  np := h.np
  child hg := (hs.kstack _).trans (h.child hg)

theorem goOn (h : Lone S n g) {p : KProg Unit} {g' : Ctx} (hp : Finishes p g')
    (hcl : g'.closing = none) (hnt : g'.nt = g.nt)
    (hnp : ∀ q st, g'.np = some (q, st) → q ≠ 0)
    (hch : ∀ q, g'.np = some (q, .child) → (S.thread (q, 0)).kstack = n * kstacksize) :
    Lone { S with code := update S.code (0, 0) p } n g' :=
  ⟨h.initproc, h.first, h.off, hnt ▸ h.embryo, h.blank, h.kstack, h.tf, h.context, h.page, h.page0,
    h.proc, h.used, h.orphan, h.others, h.cpu, by simpa using hp, hcl, hnt ▸ h.nt,
    fun {q st} => hnp q st, fun {q} => hch q⟩

end Lone

namespace Lone

variable {e : KOp} {k : e.Ans → KProg Unit} {ch : Choice} {r : e.Ans} {q : PId}
  {p : KProg Unit}

theorem of_quiet (h : Lone S' n g) (he : e.quiet = true) (hx : e ≠ .exitEnter) (hpre : e.pre g)
    (hp : Finishes p (e.next r g)) :
    Lone { S' with code := update S'.code (0, 0) p } n (e.next r g) := by
  have hcl := next_closing_none hx r h.closing
  by_cases hcopy : ∃ q, e = .copyuvm q
  · obtain ⟨q, rfl⟩ := hcopy
    refine h.goOn hp hcl rfl (fun q' st hg => ?_) fun q' hg => ?_
    · obtain ⟨rfl, -⟩ : q = q' ∧ (if r = true then Stage.image else .init) = st := by simpa using hg
      exact h.np hpre
    · obtain ⟨-, hst⟩ : q = q' ∧ (if r = true then Stage.image else .init) = .child := by
        simpa using hg
      cases r <;> cases hst
  · obtain ⟨hnp, hnt⟩ := next_owned he (fun q hq => hcopy ⟨q, hq⟩) r g
    exact h.goOn hp hcl hnt (fun _ _ hg => h.np (hnp ▸ hg)) fun _ hg => h.child (hnp ▸ hg)

section

variable (h : Lone S n g)
include h

theorem of_setTf (hc : (S.cpu c).thread = some (0, 0)) :
    Lone (S.setThread (0, 0) fun t => { t with tf := (S.cpu c).ktop - trapframeSize }) n g := by
  have hktop := (h.cpu hc).2.2
  refine ⟨h.initproc, by simpa using h.first, fun {u} hu => ?_, fun {u} hu => ?_, fun {t} ht => ?_,
    by simpa using h.kstack, ?_, by simpa using h.context, h.page, h.page0, h.proc, h.used, h.orphan,
    h.others, h.cpu, h.safe, h.closing, fun {t b} hg => ?_, h.np, fun {q} hg => ?_⟩
  · simpa [hu] using h.off hu
  · by_cases hu0 : u = (0, 0)
    · subst hu0
      exact absurd (by simpa using hu) h.first.2
    · exact h.embryo (by simpa [hu0] using hu)
  · simpa [ht] using h.blank ht
  · simp only [setThread_self, hktop, InPage, kstacksize, trapframeSize]
    omega
  · obtain ⟨hb, hst⟩ := h.nt hg
    have ht : t ≠ 0 := by
      rintro rfl
      exact h.first.2 hst
    exact ⟨hb, by simpa [ht] using hst⟩
  · simpa [h.np hg] using h.child hg

theorem of_switchuvm :
    Lone (S.setCpu c fun k =>
      { k with esp0 := (S.proc 0).kstack + kstacksize, cr3 := (S.proc 0).pgdir }) n g := by
  refine ⟨h.initproc, h.first, h.off, h.embryo, h.blank, h.kstack, h.tf, h.context, h.page, h.page0,
    h.proc, h.used, h.orphan, h.others, fun {d u} hd => ?_, h.safe, h.closing, h.nt, h.np, h.child⟩
  by_cases hdc : d = c
  · subst hdc
    obtain ⟨hu, -, hk⟩ := h.cpu (c := d) (s := u) (by simpa using hd)
    simp only [setCpu_self]
    exact ⟨hu, by rw [h.proc], hk⟩
  · rw [setCpu_ne _ hdc] at hd ⊢
    exact h.cpu hd

theorem of_entry (hq : q ≠ 0) {e' : Entry} (hproc : S'.proc = update S.proc q e')
    (hthread : S'.thread = S.thread) (hcpu : S'.cpu = S.cpu) (hcode : S'.code = S.code)
    (hinit : S'.initproc = S.initproc) (hpage : S'.page n = S.page n)
    (hpage0 : S'.page 0 = S.page 0) (hk : e'.kstack ≠ n * kstacksize) (hz : e'.state ≠ .zombie) :
    Lone S' n g := by
  have h0 : S'.proc 0 = S.proc 0 := by
    rw [hproc, update_of_ne (Ne.symm hq)]
  refine ⟨hinit.trans h.initproc, hthread ▸ h.first, hthread ▸ h.off, hthread ▸ h.embryo,
    hthread ▸ h.blank, hthread ▸ h.kstack, hthread ▸ h.tf, hthread ▸ h.context, hpage.trans h.page,
    hpage0.trans h.page0, h0 ▸ h.proc, h0 ▸ h.used, h0 ▸ h.orphan, fun {q'} hq' => ?_,
    hcpu ▸ h.cpu, hcode ▸ h.safe, h.closing, hthread ▸ h.nt, h.np, hthread ▸ h.child⟩
  rw [hproc]
  by_cases hqq : q' = q
  · subst hqq
    simpa using ⟨hk, hz⟩
  · rw [update_of_ne hqq]
    exact h.others hq'

theorem of_row (hq : q ≠ 0) (hthread : ∀ u : Slot, u.1 ≠ q → S'.thread u = S.thread u)
    (hstate : ∀ t, (S'.thread (q, t)).state.active = false ∧ (S'.thread (q, t)).state ≠ .embryo)
    (hproc : S'.proc = S.proc) (hcpu : S'.cpu = S.cpu) (hcode : S'.code (0, 0) = S.code (0, 0))
    (hinit : S'.initproc = S.initproc) (hpage : S'.page = S.page)
    (hchild : ∀ q', g.np ≠ some (q', .child)) : Lone S' n g := by
  have h0 : ∀ t, S'.thread (0, t) = S.thread (0, t) := fun t => hthread (0, t) (Ne.symm hq)
  refine ⟨hinit.trans h.initproc, by rw [h0]; exact h.first, fun {u} hu => ?_, fun {u} hu => ?_,
    fun {t} ht => by rw [h0]; exact h.blank ht, by rw [h0]; exact h.kstack, by rw [h0]; exact h.tf,
    by rw [h0]; exact h.context, hpage ▸ h.page, hpage ▸ h.page0, hproc ▸ h.proc, hproc ▸ h.used,
    hproc ▸ h.orphan, hproc ▸ h.others, hcpu ▸ h.cpu, hcode ▸ h.safe, h.closing,
    fun {t b} hg => by rw [h0]; exact h.nt hg, h.np, fun {q'} hg => absurd hg (hchild q')⟩
  · by_cases huq : u.1 = q
    · obtain ⟨u₁, u₂⟩ := u
      obtain rfl : u₁ = q := huq
      exact (hstate u₂).1
    · rw [hthread u huq]
      exact h.off hu
  · by_cases huq : u.1 = q
    · obtain ⟨u₁, u₂⟩ := u
      obtain rfl : u₁ = q := huq
      exact absurd hu (hstate u₂).2
    · rw [hthread u huq] at hu
      exact h.embryo hu

theorem pos : n ≠ 0 := by
  rintro rfl
  have := h.page.symm.trans h.page0
  cases this

theorem of_procAlloc (hp : Finishes p (KOp.procAlloc.next S.procAlloc.1 g)) :
    Lone { S.procAlloc.2 with code := update S.procAlloc.2.code (0, 0) p } n
      (KOp.procAlloc.next S.procAlloc.1 g) := by
  unfold procAlloc at hp ⊢
  split at hp
  · exact h.goOn hp h.closing rfl (by simp) (by simp)
  · rename_i q hq
    have hunused : (S.proc q).state = .unused := by simpa using first?_eq_some hq
    have hq0 : q ≠ 0 := by
      rintro rfl
      exact h.used hunused
    have hentry : Lone { S.setProc q fun e =>
        { e with state := .embryo, threads := true, pid := S.nextpid } with
        nextpid := S.nextpid + 1, exiting := update S.exiting q false } n g :=
      h.of_entry hq0 rfl rfl rfl rfl rfl rfl rfl (h.others hq0).1 (by simp)
    refine hentry.goOn hp h.closing rfl (fun q' st hg => ?_) (by simp)
    obtain ⟨rfl, -⟩ : q = q' ∧ Stage.found = st := by simpa using hg
    exact hq0

theorem of_stackAlloc {r : Bool} (hperf : S.perform c (0, 0) ch (.stackAlloc q) = some (.done r S'))
    (hp : Finishes p (KOp.next (.stackAlloc q) r g)) (hpre : g.np = some (q, .found)) :
    Lone { S' with code := update S'.code (0, 0) p } n (KOp.next (.stackAlloc q) r g) := by
  have hq := h.np hpre
  obtain ⟨rfl, rfl⟩ | ⟨rfl, page, rfl, hk⟩ := allocOr_done hperf
  · have hentry : Lone (S.setProc q fun e => { e with kstack := 0, state := .unused }) n g := by
      refine h.of_entry hq rfl rfl rfl rfl rfl rfl rfl ?_ (by simp)
      have := h.pos
      simp only [kstacksize]
      omega
    exact hentry.goOn hp h.closing rfl (by simp) (by simp)
  · obtain ⟨_, heq, hpage⟩ := kalloc_eq hk
    cases heq
    have hentry : Lone ({ S with page := page }.setProc q fun e =>
        { e with kstack := ch.pages.headD 0 * kstacksize }) n g := by
      refine h.of_entry hq rfl rfl rfl rfl rfl (hpage n (by simp [h.page]))
        (hpage 0 (by simp [h.page0])) ?_ (h.others hq).2
      -- the page was free, so it is another one
      cases hpages : ch.pages with
      | nil =>
        rw [perform, hpages] at hperf
        cases hperf
      | cons m ms =>
        simp only [kalloc, hpages, List.take_succ_cons, List.take_zero,
          Option.ite_none_right_eq_some] at hk
        have hm : S.page m = .free := hk.1.2 m (by simp)
        have hmn : m ≠ n := by
          rintro rfl
          rw [h.page] at hm
          cases hm
        simp only [List.headD_cons, kstacksize]
        omega
    refine hentry.goOn hp h.closing rfl (fun q' st hg => ?_) (by simp)
    · obtain ⟨rfl, -⟩ : q = q' ∧ Stage.stack = st := by simpa using hg
      exact hq

theorem of_procInit (hp : Finishes p (KOp.next (.procInit q) () g)) (hpre : g.np = some (q, .stack)) :
    Lone { S.procInit q with code := update (S.procInit q).code (0, 0) p } n
      (KOp.next (.procInit q) () g) := by
  have hq := h.np hpre
  have hrow : Lone (S.procInit q) n g := by
    refine h.of_row hq (fun u hu => by simp [procInit, hu]) (fun t => ?_) rfl rfl ?_ rfl rfl
      (by simp [hpre])
    · by_cases ht : t = 0 <;> simp [procInit, ht]
    · exact update_of_ne (fun he => hq (congrArg Prod.fst he).symm) _ _
  refine hrow.goOn hp h.closing rfl (fun q' st hg => ?_) (by simp)
  obtain ⟨rfl, -⟩ : q = q' ∧ Stage.init = st := by simpa using hg
  exact hq

theorem of_forkFail (hperf : S.perform c (0, 0) ch (.forkFail q) = some (.done () S'))
    (hp : Finishes p (KOp.next (.forkFail q) () g)) (hpre : g.np = some (q, .init)) :
    Lone { S' with code := update S'.code (0, 0) p } n (KOp.next (.forkFail q) () g) := by
  have hq := h.np hpre
  obtain ⟨page, rfl, hpage⟩ := forkFail_done hperf
  have hentry : Lone ({ S with page := page }.setProc q fun e =>
      { e with kstack := 0, state := .unused }) n g := by
    refine h.of_entry hq rfl rfl rfl rfl rfl (hpage n (.inl (h.others hq).1))
      (hpage 0 (.inr h.page0)) ?_ (by simp)
    have := h.pos
    simp only [kstacksize]
    omega
  exact hentry.goOn hp h.closing rfl (by simp) (by simp)

theorem of_forkThread (hp : Finishes p (KOp.next (.forkThread q) () g))
    (hpre : g.np = some (q, .image)) :
    Lone { S.forkThread (0, 0) q with
        code := update (S.forkThread (0, 0) q).code (0, 0) p } n
      (KOp.next (.forkThread q) () g) := by
  have hq := h.np hpre
  have hentry : Lone (S.setProc q fun e => { e with parent := some 0 }) n g :=
    h.of_entry hq rfl rfl rfl rfl rfl rfl rfl (h.others hq).1 (h.others hq).2
  have hrow : Lone (S.forkThread (0, 0) q) n g := by
    refine hentry.of_row hq (fun u hu => by simp [forkThread, hu]) (fun t => ?_) rfl rfl rfl rfl rfl
      (by simp [hpre])
    by_cases ht : t = 0
    · have hoff := h.off (u := (q, 0)) fun he => hq (congrArg Prod.fst he)
      have hemb : (S.thread (q, 0)).state ≠ .embryo := fun he => hq (h.embryo he).1
      simpa [forkThread, ht] using ⟨hoff, hemb⟩
    · simp [forkThread, ht]
  refine hrow.goOn hp h.closing rfl (fun q' st hg => ?_) fun q' hg => ?_
  · obtain ⟨rfl, -⟩ : q = q' ∧ Stage.child = st := by simpa using hg
    exact hq
  · obtain rfl : q = q' := by simpa using hg
    simpa [forkThread] using h.kstack

theorem of_threadAlloc (hp : Finishes p (KOp.threadAlloc.next (S.threadAlloc 0).1 g))
    (hpre : g.nt = none) :
    Lone { (S.threadAlloc 0).2 with code := update (S.threadAlloc 0).2.code (0, 0) p } n
      (KOp.threadAlloc.next (S.threadAlloc 0).1 g) := by
  unfold threadAlloc at hp ⊢
  split at hp
  · exact h.goOn hp h.closing hpre.symm (fun _ _ hg => h.np hg) fun _ hg => h.child hg
  · rename_i t ht
    have hunused : (S.thread (0, t)).state = .unused := by simpa using first?_eq_some ht
    have ht0 : t ≠ 0 := by
      rintro rfl
      exact h.first.1 hunused
    have hne : ((0, 0) : Slot) ≠ (0, t) := fun he => ht0 (congrArg Prod.snd he).symm
    have hnone : ∀ u, (S.thread u).state ≠ .embryo := by
      intro u hu
      have := (h.embryo hu).2
      rw [hpre] at this
      cases this
    refine ⟨h.initproc, by simpa [hne] using h.first, fun {u} hu => ?_, fun {u} hu => ?_,
      fun {t'} ht' => ?_, by simpa [hne] using h.kstack, by simpa [hne] using h.tf,
      by simpa [hne] using h.context, h.page, h.page0, h.proc, h.used, h.orphan, h.others, h.cpu,
      by simpa using hp, h.closing, fun {t' b} hg => ?_, h.np, fun {q} hg => ?_⟩
    · by_cases hut : u = (0, t)
      · simp [hut]
      · simpa [hut] using h.off hu
    · by_cases hut : u = (0, t)
      · simp [hut]
      · exact absurd (by simpa [hut] using hu) (hnone u)
    · by_cases htt : t' = t
      · subst htt
        simpa using h.blank ht'
      · simpa [htt] using h.blank ht'
    · obtain ⟨rfl, rfl⟩ : t = t' ∧ false = b := by simpa using hg
      simp
    · have hq0 : ((q, 0) : Slot) ≠ (0, t) := fun he => h.np hg (congrArg Prod.fst he)
      simpa [hq0] using h.child hg

theorem of_threadExit (hperf : S.perform c (0, 0) ch .threadExit = some (.done () S'))
    (hp : Finishes p (KOp.threadExit.next () g)) :
    Lone { S' with code := update S'.code (0, 0) p } n (KOp.threadExit.next () g) := by
  obtain ⟨-, hperf⟩ := withRow_done hperf
  split at hperf
  · cases hperf
    refine ⟨h.initproc, by simp, fun {u} hu => ?_, fun {u} hu => ?_, fun {t} ht => ?_,
      by simpa using h.kstack, by simpa using h.tf, by simpa using h.context, h.page, h.page0,
      by simpa using h.proc, by simp, by simpa using h.orphan, fun {q} hq => ?_, h.cpu,
      by simpa using hp, h.closing, fun {t b} hg => ?_, h.np, fun {q} hg => ?_⟩
    · simpa [hu] using h.off hu
    · by_cases hu0 : u = (0, 0)
      · simp [hu0] at hu
      · exact h.embryo (by simpa [hu0] using hu)
    · simpa [ht] using h.blank ht
    · simpa [hq] using h.others hq
    · obtain ⟨hb, hst⟩ := h.nt hg
      have ht : t ≠ 0 := by
        rintro rfl
        exact h.first.2 hst
      exact ⟨hb, by simpa [ht] using hst⟩
    · simpa [h.np hg] using h.child hg
  · cases hperf

theorem of_wait {r : Int32} (hperf : S.perform c (0, 0) ch .wait = some (.done r S')) : S' = S := by
  obtain ⟨q, page, -, -, -, hparent, hz, -⟩ | ⟨-, -, -, hsame⟩ := wait_cases hperf
  · have hq0 : q ≠ 0 := by
      rintro rfl
      rw [h.orphan] at hparent
      cases hparent
    exact absurd hz (h.others hq0).2
  · exact hsame

theorem of_done (hok : Solo S (.run c ch)) (hc : (S.cpu c).thread = some (0, 0))
    (hcode : S.code (0, 0) = .vis e k) (hperf : S.perform c (0, 0) ch e = some (.done r S')) :
    Lone { S' with code := update S'.code (0, 0) (k r) } n (e.next r g) := by
  have hsafe := h.safe
  rw [hcode] at hsafe
  have hpre : e.pre g := hsafe.1
  have hp : Finishes (k r) (e.next r g) := hsafe.2 r
  have hsolo : S.solo (.run c ch) = true := hok
  simp only [solo, nextOp_eq hc hcode] at hsolo
  by_cases hx : e = .exitEnter
  · subst hx
    simp only [perform, h.initproc, if_true] at hperf
    cases hperf
  by_cases hk : e.keepsStacks = true
  · have hq : e.quiet = true := by cases e <;> first | rfl | cases hk
    have hf := perform_frame hperf
    exact (h.same (hf.quiet hq) (hf.kstacks hk)).of_quiet hq hx hpre hp
  cases e with
  | setTf =>
    cases hperf
    exact (h.of_setTf hc).of_quiet rfl (by simp) hpre hp
  | switchuvm =>
    simp only [perform] at hperf
    split at hperf
    · cases hperf
    · cases hperf
      exact h.of_switchuvm.of_quiet rfl (by simp) hpre hp
  | procAlloc =>
    cases hperf
    exact h.of_procAlloc hp
  | stackAlloc q => exact h.of_stackAlloc hperf hp hpre
  | procInit q =>
    cases hperf
    exact h.of_procInit hp hpre
  | forkFail q => exact h.of_forkFail hperf hp hpre
  | forkThread q =>
    cases hperf
    exact h.of_forkThread hp hpre
  | forkDone q => cases hsolo
  | threadAlloc =>
    cases (withRow_done hperf).2
    exact h.of_threadAlloc hp hpre
  | threadInit t size => cases hsolo
  | threadReady t =>
    obtain ⟨hb, -⟩ := h.nt hpre
    cases hb
  | threadExit => exact h.of_threadExit hperf hp
  | exitDone => exact r.elim
  | wait =>
    obtain rfl := h.of_wait hperf
    exact h.goOn hp h.closing rfl (fun _ _ hg => h.np hg) fun _ hg => h.child hg
  | _ => exact absurd rfl hk

/-- The first thread does not come to an end: it has no siblings to leave behind, and
`init` does not get past the beginning of `exit`. -/
theorem not_gone (hcode : S.code (0, 0) = .vis e k)
    (hperf : S.perform c (0, 0) ch e = some (.gone S')) : False := by
  have hsafe := h.safe
  rw [hcode] at hsafe
  obtain rfl | rfl := gone_cases hperf
  · obtain ⟨-, hperf⟩ := withRow_gone hperf
    split at hperf
    · cases hperf
    · rename_i hidle
      refine hidle (rowIdle_iff.mpr fun t => ?_)
      by_cases ht : t = 0
      · subst ht
        simp
      · rw [setThread_ne _ fun he => ht (congrArg Prod.snd he)]
        have hoff := h.off (u := (0, t)) fun he => ht (congrArg Prod.snd he)
        cases hst : (S.thread (0, t)).state with
        | embryo =>
          have := (h.embryo hst).2
          rw [hsafe.1.1.nt] at this
          cases this
        | unused | zombie => rfl
        | sleeping | runnable | running => simp [hst] at hoff
  · obtain ⟨fds, hclosing, -⟩ := hsafe.1.2
    rw [h.closing] at hclosing
    cases hclosing

theorem of_leave (hc : (S.cpu c).thread = some (0, 0)) (depth : ℕ) {f : KThread → KThread}
    (hk : ∀ t, (f t).kstack = t.kstack) (htf : ∀ t, (f t).tf = t.tf)
    (hst : ∀ t, (f t).state ≠ .unused ∧ (f t).state ≠ .embryo) :
    Lone ((S.setThread (0, 0) f).leave c (0, 0) depth) n g := by
  have hktop := (h.cpu hc).2.2
  have hother : ∀ u, u ≠ (0, 0) →
      ((S.setThread (0, 0) f).leave c (0, 0) depth).thread u = S.thread u := by
    intro u hu
    simp [Kernel.leave, hu]
  refine ⟨h.initproc, by simpa [Kernel.leave] using hst _, fun {u} hu => ?_, fun {u} hu => ?_,
    fun {t} ht => ?_, ?_, ?_, ?_, h.page, h.page0, h.proc, h.used, h.orphan, h.others,
    fun {d u} hd => ?_, h.safe, h.closing, fun {t b} hg => ?_, h.np, fun {q} hg => ?_⟩
  · rw [hother u hu]
    exact h.off hu
  · by_cases hu0 : u = (0, 0)
    · subst hu0
      exact absurd (by simpa [Kernel.leave] using hu) (hst _).2
    · rw [hother u hu0] at hu
      exact h.embryo hu
  · rw [hother (0, t) fun he => ht (congrArg Prod.snd he)]
    exact h.blank ht
  · simpa [Kernel.leave, hk] using h.kstack
  · simpa [Kernel.leave, htf] using h.tf
  · simp only [Kernel.leave, setCpu_thread, setThread_self, setThread_cpu, hktop, InPage]
    have := Nat.mod_lt depth (show 0 < kstacksize - trapframeSize - contextSize by decide)
    simp only [kstacksize, trapframeSize, contextSize] at this ⊢
    omega
  · by_cases hdc : d = c
    · subst hdc
      simp [Kernel.leave] at hd
    · simp only [Kernel.leave, setCpu_ne _ hdc, setThread_cpu] at hd ⊢
      exact h.cpu hd
  · obtain ⟨hb, hemb⟩ := h.nt hg
    refine ⟨hb, ?_⟩
    rw [hother]
    · exact hemb
    · intro he
      rw [he] at hemb
      exact h.first.2 hemb
  · rw [hother (q, 0) fun he => h.np hg (congrArg Prod.fst he)]
    exact h.child hg

theorem of_schedule (hrun : S.canRun c s = true) : Lone (S.dispatch c s) n g := by
  have hs := runnable_of_canRun hrun
  obtain rfl : s = (0, 0) := by
    by_contra hne
    have := h.off hne
    simp [hs] at this
  have hother : ∀ u, u ≠ (0, 0) → (S.dispatch c (0, 0)).thread u = S.thread u :=
    fun u hu => by simp [dispatch, hu]
  refine ⟨h.initproc, by simp [dispatch], fun {u} hu => ?_, fun {u} hu => ?_, fun {t} ht => ?_,
    by simpa [dispatch] using h.kstack, by simpa [dispatch] using h.tf,
    by simpa [dispatch] using h.context, h.page, h.page0, h.proc, h.used, h.orphan, h.others,
    fun {d u} hd => ?_, h.safe, h.closing, fun {t b} hg => ?_, h.np, fun {q} hg => ?_⟩
  · rw [hother u hu]
    exact h.off hu
  · by_cases hu0 : u = (0, 0)
    · subst hu0
      simp [dispatch] at hu
    · rw [hother u hu0] at hu
      exact h.embryo hu
  · rw [hother (0, t) fun he => ht (congrArg Prod.snd he)]
    exact h.blank ht
  · by_cases hdc : d = c
    · subst hdc
      obtain rfl : (0, 0) = u := by simpa [dispatch] using hd
      obtain ⟨hlo, hhi⟩ := h.context
      refine ⟨rfl, by simp [dispatch, h.proc], ?_⟩
      have hdiv : (S.thread (0, 0)).context / kstacksize = n := by
        simp only [kstacksize, contextSize] at hlo hhi ⊢
        omega
      simp [dispatch, hdiv]
    · simp only [dispatch, setThread_cpu, setCpu_ne _ hdc] at hd ⊢
      exact h.cpu hd
  · obtain ⟨hb, hemb⟩ := h.nt hg
    refine ⟨hb, ?_⟩
    rw [hother]
    · exact hemb
    · intro he
      rw [he] at hemb
      exact h.first.2 hemb
  · rw [hother (q, 0) fun he => h.np hg (congrArg Prod.fst he)]
    exact h.child hg

theorem of_enter (t : Trap) (hcode : S.code (0, 0) = .ret ()) :
    Lone { S.setCpu c fun k => { k with ktop := k.esp0 } with
      code := update S.code (0, 0) (trap t) } n .start where
  initproc := h.initproc
  first := h.first
  off := h.off
  embryo hu := by
    have hsafe := h.safe
    rw [hcode] at hsafe
    obtain rfl : g = .start := hsafe
    exact h.embryo hu
  blank := h.blank
  kstack := h.kstack
  tf := h.tf
  context := h.context
  page := h.page
  page0 := h.page0
  proc := h.proc
  used := h.used
  orphan := h.orphan
  others := h.others
  cpu {d u} hd := by
    by_cases hdc : d = c
    · subst hdc
      simp only [setCpu_self] at hd ⊢
      exact ⟨(h.cpu hd).1, (h.cpu hd).2.1, (h.cpu hd).2.1⟩
    · simp only [setCpu_ne _ hdc] at hd ⊢
      exact h.cpu hd
  safe := by
    simp only [update_self]
    exact safe_trap t
  closing := rfl
  nt hg := by cases hg
  np hg := by cases hg
  child hg := by cases hg

end

end Lone

/-- **A step that neither finishes a child nor sets up a thread leaves the first thread
alone on its stack.** -/
theorem Lone.step (h : Lone S n g) {a : Act ncpu} (hok : Solo S a)
    (hs : Proc.step S a = some (.ok S')) : ∃ g', Lone S' n g' := by
  obtain ⟨_, hm⟩ := Moves.of_step (fun _ => g) hs
  cases hm with
  | schedule _ hrun => exact ⟨g, h.of_schedule hrun⟩
  | done hc hcode hperf =>
    obtain rfl := (h.cpu hc).1
    exact ⟨_, h.of_done hok hc hcode hperf⟩
  | sleep hc | tick hc =>
    obtain rfl := (h.cpu hc).1
    exact ⟨g, h.of_leave hc _ (fun _ => rfl) (fun _ => rfl) fun _ => by simp⟩
  | gone hc hcode hperf =>
    obtain rfl := (h.cpu hc).1
    exact (h.not_gone hcode hperf).elim
  | enter hc hcode =>
    obtain rfl := (h.cpu hc).1
    exact ⟨.start, h.of_enter _ hcode⟩
  | intr => exact ⟨g, h.same (quiet_wakeup1 _ _) ((SameStacks.of_eq rfl rfl rfl (fun _ _ => rfl) rfl).wakeup1 _)⟩

theorem Lone.of_booted (h : Booted S) : ∃ n, Lone S n .start := by
  obtain ⟨k, d, avail, hk, hd, -, rfl⟩ := h
  have hproc : ∀ {p}, p ≠ 0 → (boot ncpu k d avail).proc p = .empty :=
    fun hp => by simp [boot, hp]
  have hthread : ∀ {u : Slot}, u ≠ (0, 0) → (boot ncpu k d avail).thread u = .empty :=
    fun hu => by simp [boot, hu]
  refine ⟨k, rfl, by simp [boot], fun hu => by rw [hthread hu]; rfl, fun {u} hu => ?_,
    fun {t} ht => ?_, rfl, ?_, ?_, by simp [boot], by simp [boot, hk.symm, hd.symm], rfl,
    by simp [boot], rfl, fun {q} hq => ?_, fun hc => ?_, keeps_forkret, rfl, fun hg => ?_,
    fun hg => ?_, fun hg => ?_⟩
  · by_cases hu0 : u = (0, 0)
    · subst hu0
      cases hu
    · rw [hthread hu0] at hu
      cases hu
  · rw [hthread fun he => ht (congrArg Prod.snd he)]
    exact ⟨rfl, rfl⟩
  · simp only [boot, update_self, InPage, kstacksize, trapframeSize]
    omega
  · simp only [boot, update_self, InPage, kstacksize, trapframeSize, contextSize]
    omega
  · rw [hproc hq]
    refine ⟨?_, by simp [Entry.empty]⟩
    simp only [Entry.empty, kstacksize]
    omega
  · cases hc
  · cases hg
  · cases hg
  · cases hg

theorem lone_of_reach (h : Reach step Solo Booted S) : ∃ n g, Lone S n g := by
  refine Reach.invariant (I := fun S => ∃ n g, Lone S n g) (fun S hS => ?_) ?_ h
  · obtain ⟨n, hn⟩ := Lone.of_booted hS
    exact ⟨n, _, hn⟩
  · rintro S a S' ⟨n, g, hl⟩ hok hs
    exact ⟨n, hl.step hok hs⟩

/-- **Threads own their stacks as long as the first one is alone.**  In every run in which
no `fork` finishes a child and no `kthread_create` sets up a thread, every thread that has
been set up has its trap frame and its context in an allocated page that it records and
that no other such thread records, and a trap of the thread on a processor starts at the
top of that page. -/
theorem own_stacks (h : Reach step Solo Booted S) : OwnStacks S := by
  obtain ⟨n, g, hl⟩ := lone_of_reach h
  exact hl.ownStacks

set_option maxRecDepth 10000 in
/-- The first process, when it has come to user space, owns its stack. -/
theorem own_stacks_initRuns :
    ∃ S : Kernel 2, Reach step Solo Booted S ∧ S.setUp (0, 0) = true ∧ OwnStacks S := by
  have hm : Meets step Solo booted initRuns := by decide +kernel
  have he : endsIn step booted initRuns (fun S => S.setUp (0, 0)) = true := by decide +kernel
  obtain ⟨S, hS, hup⟩ := Reach.of_endsIn booted_booted he hm
  exact ⟨S, hS, hup, own_stacks hS⟩

/-! ## The condition cannot be dropped -/

/-- When the running thread finishes a child, the child records the same page. -/
theorem forkDone_shares (h : Lone S n g) (hc : (S.cpu c).thread = some s)
    (hrun : (S.thread s).state = .running) {q : PId} {k : Int32 → KProg Unit}
    (hcode : S.code s = .vis (.forkDone q) k) {ch : Choice}
    (hs : step S (.run c ch) = some (.ok S')) : ¬ OwnStacks S' := by
  obtain rfl := (h.cpu hc).1
  have hsafe := h.safe
  rw [hcode] at hsafe
  have hpre : g.np = some (q, .child) := hsafe.1
  have hq0 : ((0, 0) : Slot) ≠ (q, 0) := fun he => h.np hpre (congrArg Prod.fst he).symm
  simp only [step, hc, hcode, perform, Option.some.injEq, Except.ok.injEq] at hs
  subst hs
  intro hown
  refine hq0 (hown.distinct (0, 0) (q, 0) ?_ ?_ ?_)
  · simp [setUp, hq0, hrun]
  · simp [setUp]
  · simp [hq0, h.kstack, h.child hpre]

/-- When a thread sets up another one, that one has no page. -/
theorem threadInit_has_no_page (h : Lone S n g) (hc : (S.cpu c).thread = some s) {t : TId}
    {size : ℕ} {k : Unit → KProg Unit} (hcode : S.code s = .vis (.threadInit t size) k)
    {ch : Choice} (hs : step S (.run c ch) = some (.ok S')) : ¬ OwnStacks S' := by
  obtain rfl := (h.cpu hc).1
  have hsafe := h.safe
  rw [hcode] at hsafe
  have hpre : g.nt = some (t, false) := hsafe.1
  have hemb := (h.nt hpre).2
  have ht : t ≠ 0 := by
    rintro rfl
    exact h.first.2 hemb
  simp only [step, hc, hcode, perform, Option.some.injEq, Except.ok.injEq] at hs
  subst hs
  intro hown
  obtain ⟨m, hm, hpage, -⟩ := hown.page (0, t) (by simp [setUp, threadInit, hemb])
  obtain rfl : m = 0 := by
    simp only [threadInit, setThread_self, (h.blank ht).2, kstacksize] at hm
    omega
  rw [show (S.threadInit (0, 0).1 t size).page 0 = S.page 0 from rfl, h.page0] at hpage
  cases hpage

set_option maxRecDepth 10000 in
/-- The first process forks once: its thread and the child's, both set up, record one page. -/
theorem fork_shares_stack : ∃ S : Kernel 2, Reach step anyStep Booted S ∧ ¬ OwnStacks S := by
  have he : endsIn step booted (initRuns ++ initForks) (fun S => S.setUp (0, 0) && S.setUp (1, 0) &&
      (S.thread (0, 0)).kstack == (S.thread (1, 0)).kstack) = true := by decide +kernel
  obtain ⟨S, hS, hshare⟩ := Reach.of_endsIn booted_booted he
  simp only [Bool.and_eq_true, beq_iff_eq] at hshare
  refine ⟨S, hS, fun hown => ?_⟩
  have := hown.distinct (0, 0) (1, 0) hshare.1.1 hshare.1.2 hshare.2
  cases this

end Xv6.Proc
