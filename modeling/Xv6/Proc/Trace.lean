import Xv6.Proc.Machine
import Xv6.Proc.SafeCalls

/-!
# Steps of the kernel, with what the threads know

`step` is a function on states; what a thread knows of its own doings (`Ctx`) is not in
the state.  `Moves` is the graph of `step`, one constructor for each way a step can go,
and it carries that knowledge along: the thread that performs an operation learns what
`kernelRules` says, and a thread that another has just made runnable knows nothing.
Every invariant of the kernel is proved by cases on `Moves`.

The rest of the file says, once and for all operations, what an operation leaves alone:
the life cycle of processes and threads (`Quiet`), the open files (`SameFiles`) and what
is marked busy (`SameHolds`).
-/

namespace Xv6.Proc

open Function Transition Kernel

variable {ncpu : ℕ}

/-- The thread that an operation of `s` makes runnable for the first time. -/
def KOp.starts : KOp → Slot → Option Slot
  | .forkDone np, _ => some (np, 0)
  | .threadReady t, s => some (s.1, t)
  | _, _ => none

/-- What is known after `e` has been answered with `r` in thread `s`. -/
def learn (G : Slot → Ctx) (s : Slot) (e : KOp) (r : e.Ans) : Slot → Ctx :=
  let G' := update G s (e.next r (G s))
  match e.starts s with
  | none => G'
  | some u => update G' u .start

theorem learn_ne {e : KOp} (G : Slot → Ctx) {s : Slot} (r : e.Ans) {u : Slot} (hu : u ≠ s)
    (hst : e.starts s ≠ some u) : learn G s e r u = G u := by
  cases hv : e.starts s with
  | none => simp [learn, hv, hu]
  | some v =>
    have huv : u ≠ v := fun huv => hst (huv ▸ hv)
    simp [learn, hv, hu, huv]

theorem learn_starts {e : KOp} (G : Slot → Ctx) {s : Slot} (r : e.Ans) {u : Slot} (hst : e.starts s = some u) :
    learn G s e r u = .start := by
  simp [learn, hst]

theorem learn_self {e : KOp} (G : Slot → Ctx) {s : Slot} (r : e.Ans) (hst : e.starts s ≠ some s) :
    learn G s e r s = e.next r (G s) := by
  cases hv : e.starts s with
  | none => simp [learn, hv]
  | some v =>
    have hsv : s ≠ v := fun hsv => hst (hsv ▸ hv)
    simp [learn, hv, hsv]

/-- **The steps of the kernel**, with what the threads know before and after. -/
inductive Moves (S : Kernel ncpu) (G : Slot → Ctx) :
    Act ncpu → Kernel ncpu → (Slot → Ctx) → Prop where
  | schedule {c : Fin ncpu} {s : Slot} (hc : (S.cpu c).thread = none) (hrun : S.canRun c s = true) :
      Moves S G (.schedule c s) (S.dispatch c s) G
  | done {c : Fin ncpu} {s : Slot} {ch : Choice} {e : KOp} {k : e.Ans → KProg Unit} {r : e.Ans}
      {S' : Kernel ncpu} (hc : (S.cpu c).thread = some s) (hcode : S.code s = .vis e k)
      (hperf : S.perform c s ch e = some (.done r S')) :
      Moves S G (.run c ch) { S' with code := update S'.code s (k r) } (learn G s e r)
  | sleep {c : Fin ncpu} {s : Slot} {ch : Choice} {e : KOp} {k : e.Ans → KProg Unit} {chan : Chan}
      (hc : (S.cpu c).thread = some s) (hcode : S.code s = .vis e k)
      (hperf : S.perform c s ch e = some (.sleep chan)) :
      Moves S G (.run c ch) (S.sleepOn c s chan ch.depth) G
  | gone {c : Fin ncpu} {s : Slot} {ch : Choice} {e : KOp} {k : e.Ans → KProg Unit}
      {S' : Kernel ncpu} (hc : (S.cpu c).thread = some s) (hcode : S.code s = .vis e k)
      (hperf : S.perform c s ch e = some (.gone S')) :
      Moves S G (.run c ch) S' G
  | enter {c : Fin ncpu} {s : Slot} {t : Trap} (hc : (S.cpu c).thread = some s)
      (hcode : S.code s = .ret ()) :
      Moves S G (.enter c t)
        { S.setCpu c fun k => { k with ktop := k.esp0 } with
          code := update S.code s (trap t) } (update G s .start)
  | tick {c : Fin ncpu} {s : Slot} {depth : ℕ} {e : KOp} {k : e.Ans → KProg Unit}
      (hc : (S.cpu c).thread = some s) (hcode : S.code s = .vis e k)
      (hs : (S.thread s).state = .running) :
      Moves S G (.tick c depth) (S.yield c s depth) G
  | intr {chan : Chan} : Moves S G (.intr chan) (S.wakeup1 chan) G

theorem Moves.of_step {S S' : Kernel ncpu} {a : Act ncpu} (G : Slot → Ctx)
    (h : step S a = some (.ok S')) : ∃ G', Moves S G a S' G' := by
  cases a with
  | schedule c s =>
    simp only [step] at h
    split at h
    · cases h
    · rename_i hc
      split at h
      · rename_i hrun
        split at h
        · cases h
        · cases h
          exact ⟨_, .schedule hc hrun⟩
      · cases h
  | run c ch =>
    simp only [step] at h
    split at h
    · cases h
    · rename_i s hc
      split at h
      · cases h
      · rename_i e k hcode
        split at h
        · cases h
        · rename_i r S₁ hperf
          cases h
          exact ⟨_, .done hc hcode hperf⟩
        · rename_i chan hperf
          cases h
          exact ⟨_, .sleep hc hcode hperf⟩
        · rename_i S₁ hperf
          cases h
          exact ⟨_, .gone hc hcode hperf⟩
        · cases h
  | enter c t =>
    simp only [step] at h
    split at h
    · cases h
    · rename_i s hc
      split at h
      · cases h
      · rename_i hcode
        cases h
        exact ⟨_, .enter hc hcode⟩
  | tick c depth =>
    simp only [step] at h
    split at h
    · cases h
    · rename_i s hc
      split at h
      · cases h
      · rename_i e k hcode
        split at h
        · rename_i hs
          cases h
          exact ⟨_, .tick hc hcode hs⟩
        · cases h
  | intr chan =>
    simp only [step] at h
    cases h
    exact ⟨_, .intr⟩

/-! ## What an operation leaves alone -/

namespace Kernel

variable (S : Kernel ncpu)

@[simp] theorem setProc_self (p : PId) (f : Entry → Entry) :
    (S.setProc p f).proc p = f (S.proc p) :=
  update_self p _ _

@[simp] theorem setProc_ne {p q : PId} (h : q ≠ p) (f : Entry → Entry) :
    (S.setProc p f).proc q = S.proc q :=
  update_of_ne h _ _

@[simp] theorem setThread_self (s : Slot) (f : KThread → KThread) :
    (S.setThread s f).thread s = f (S.thread s) :=
  update_self s _ _

@[simp] theorem setThread_ne {s u : Slot} (h : u ≠ s) (f : KThread → KThread) :
    (S.setThread s f).thread u = S.thread u :=
  update_of_ne h _ _

@[simp] theorem setCpu_self (c : Fin ncpu) (f : Cpu → Cpu) : (S.setCpu c f).cpu c = f (S.cpu c) :=
  update_self c _ _

@[simp] theorem setCpu_ne {c d : Fin ncpu} (h : d ≠ c) (f : Cpu → Cpu) :
    (S.setCpu c f).cpu d = S.cpu d :=
  update_of_ne h _ _

@[simp] theorem setProc_thread (p : PId) (f : Entry → Entry) :
    (S.setProc p f).thread = S.thread := rfl

@[simp] theorem setThread_proc (s : Slot) (f : KThread → KThread) :
    (S.setThread s f).proc = S.proc := rfl

@[simp] theorem setCpu_proc (c : Fin ncpu) (f : Cpu → Cpu) : (S.setCpu c f).proc = S.proc := rfl

@[simp] theorem setCpu_thread (c : Fin ncpu) (f : Cpu → Cpu) :
    (S.setCpu c f).thread = S.thread := rfl

@[simp] theorem setProc_cpu (p : PId) (f : Entry → Entry) : (S.setProc p f).cpu = S.cpu := rfl

@[simp] theorem setThread_cpu (s : Slot) (f : KThread → KThread) :
    (S.setThread s f).cpu = S.cpu := rfl

end Kernel

/-- Nothing happens to the life cycle of processes and threads, except that sleeping
threads may become runnable. -/
structure Quiet (S S' : Kernel ncpu) : Prop where
  state : ∀ p, (S'.proc p).state = (S.proc p).state
  parent : ∀ p, (S'.proc p).parent = (S.proc p).parent
  threads : ∀ p, (S'.proc p).threads = (S.proc p).threads
  thread : ∀ s, (S'.thread s).state = (S.thread s).state ∨
    (S.thread s).state = .sleeping ∧ (S'.thread s).state = .runnable
  cpu : ∀ c, (S'.cpu c).thread = (S.cpu c).thread
  code : S'.code = S.code

/-- The open files and current directories, and who is in `exit`, stay as they are. -/
structure SameFiles (S S' : Kernel ncpu) : Prop where
  ofile : ∀ p, (S'.proc p).ofile = (S.proc p).ofile
  cwd : ∀ p, (S'.proc p).cwd = (S.proc p).cwd
  exiting : S'.exiting = S.exiting

/-- What is marked busy stays as it is. -/
structure SameHolds (S S' : Kernel ncpu) : Prop where
  bufHolder : S'.bufHolder = S.bufHolder
  inodeHolder : S'.inodeHolder = S.inodeHolder
  outstanding : S'.outstanding = S.outstanding
  units : S'.units = S.units

/-- The kernel stacks, what is on them and where they are recorded stay as they are; a
thread's parent may be forgotten. -/
structure SameStacks (S S' : Kernel ncpu) : Prop where
  proc : ∀ p, (S'.proc p).kstack = (S.proc p).kstack
  kstack : ∀ s, (S'.thread s).kstack = (S.thread s).kstack
  tf : ∀ s, (S'.thread s).tf = (S.thread s).tf
  context : ∀ s, (S'.thread s).context = (S.thread s).context
  parent : ∀ s, (S'.thread s).parent = (S.thread s).parent ∨ (S'.thread s).parent = none
  page : ∀ n, S.page n = .reserved ∨ (∃ p, S.page n = .stack p) → S'.page n = S.page n
  esp0 : ∀ c, (S'.cpu c).esp0 = (S.cpu c).esp0
  ktop : ∀ c, (S'.cpu c).ktop = (S.cpu c).ktop
  initproc : S'.initproc = S.initproc

/-- The operations that are `Quiet`. -/
@[simp] def KOp.quiet : KOp → Bool
  | .procAlloc | .stackAlloc _ | .procInit _ | .forkFail _ | .forkThread _ | .forkDone _
  | .threadAlloc | .threadInit _ _ | .threadReady _ | .threadExit | .exitDone | .wait => false
  | _ => true

/-- The operations that leave the open files alone. -/
@[simp] def KOp.keepsFiles : KOp → Bool
  | .procAlloc | .forkFile _ _ | .forkCwd _ | .exitEnter | .setOfile _ _ | .setCwd _ => false
  | _ => true

/-- The operations that leave alone what is marked busy. -/
@[simp] def KOp.keepsHolds : KOp → Bool
  | .bget | .brelse _ | .ilock _ | .iunlock _ | .iputTest _ | .iputEnd _ _ | .beginOp
  | .endOp => false
  | _ => true

/-- The operations that leave the kernel stacks alone. -/
@[simp] def KOp.keepsStacks : KOp → Bool
  | .setTf | .switchuvm => false
  | e => e.quiet

variable {S S' S₁ : Kernel ncpu}

namespace Quiet

theorem of_eq (hp : S'.proc = S.proc := by rfl) (ht : S'.thread = S.thread := by rfl)
    (hc : S'.cpu = S.cpu := by rfl) (hk : S'.code = S.code := by rfl) : Quiet S S' := by
  refine ⟨?_, ?_, ?_, ?_, ?_, hk⟩ <;> simp [hp, ht, hc]

theorem setProc (h : Quiet S S₁) (p : PId) {f : Entry → Entry}
    (hs : ∀ e, (f e).state = e.state) (hp : ∀ e, (f e).parent = e.parent)
    (ht : ∀ e, (f e).threads = e.threads) : Quiet S (S₁.setProc p f) := by
  have hf : ∀ {α : Type} (g : Entry → α), (∀ e, g (f e) = g e) →
      ∀ q, g ((S₁.setProc p f).proc q) = g (S₁.proc q) := by
    intro α g hg q
    simp only [Kernel.setProc, update_apply]
    split
    · rename_i hq
      rw [hg, hq]
    · rfl
  exact ⟨fun q => (hf _ hs q).trans (h.state q), fun q => (hf _ hp q).trans (h.parent q),
    fun q => (hf _ ht q).trans (h.threads q), h.thread, h.cpu, h.code⟩

theorem setThread (S : Kernel ncpu) (s : Slot) {f : KThread → KThread}
    (hs : ∀ t, (f t).state = t.state) : Quiet S (S.setThread s f) := by
  refine ⟨fun _ => rfl, fun _ => rfl, fun _ => rfl, fun u => .inl ?_, fun _ => rfl, rfl⟩
  simp only [Kernel.setThread, update_apply]
  split
  · rename_i hu
    rw [hs, hu]
  · rfl

theorem setCpu (S : Kernel ncpu) (c : Fin ncpu) {f : Cpu → Cpu}
    (hs : ∀ k, (f k).thread = k.thread) : Quiet S (S.setCpu c f) := by
  refine ⟨fun _ => rfl, fun _ => rfl, fun _ => rfl, fun _ => .inl rfl, fun d => ?_, rfl⟩
  simp only [Kernel.setCpu, update_apply]
  split
  · rename_i hd
    rw [hs, hd]
  · rfl

end Quiet

theorem wake_state (chan : Chan) (t : KThread) :
    (wake chan t).state = t.state ∨ t.state = .sleeping ∧ (wake chan t).state = .runnable := by
  unfold wake
  split
  · rename_i h
    exact .inr ⟨h.1, rfl⟩
  · exact .inl rfl

theorem quiet_wakeup1 (S : Kernel ncpu) (chan : Chan) : Quiet S (S.wakeup1 chan) := by
  refine ⟨fun _ => rfl, fun _ => rfl, fun _ => rfl, fun s => ?_, fun _ => rfl, rfl⟩
  simp only [wakeup1]
  split
  · exact wake_state chan _
  · exact .inl rfl

theorem quiet_kill (S : Kernel ncpu) (pid : Int32) : Quiet S (S.kill pid).2 := by
  unfold kill
  split
  · exact .of_eq
  · rename_i q _
    have h := Quiet.setProc (f := fun e => { e with killed := true })
      (.of_eq (S := S)) q (fun _ => rfl) (fun _ => rfl) (fun _ => rfl)
    refine ⟨h.state, h.parent, h.threads, fun s => ?_, fun _ => rfl, rfl⟩
    dsimp only
    split
    · rename_i hs
      exact .inr ⟨hs.2.2, rfl⟩
    · exact .inl rfl

theorem sameFiles_of_eq (hp : S'.proc = S.proc) (he : S'.exiting = S.exiting) : SameFiles S S' :=
  ⟨fun _ => by rw [hp], fun _ => by rw [hp], he⟩

theorem SameFiles.setProc (h : SameFiles S S₁) (p : PId) {f : Entry → Entry}
    (ho : ∀ e, (f e).ofile = e.ofile) (hc : ∀ e, (f e).cwd = e.cwd) :
    SameFiles S (S₁.setProc p f) := by
  refine ⟨fun q => (?_ : _ = (S₁.proc q).ofile).trans (h.ofile q),
    fun q => (?_ : _ = (S₁.proc q).cwd).trans (h.cwd q), h.exiting⟩ <;>
  · simp only [Kernel.setProc, update_apply]
    split
    · rename_i hq
      simp [ho, hc, hq]
    · rfl

theorem wake_same (chan : Chan) (t : KThread) : (wake chan t).kstack = t.kstack ∧
    (wake chan t).tf = t.tf ∧ (wake chan t).context = t.context ∧
    (wake chan t).parent = t.parent := by
  unfold wake
  split <;> exact ⟨rfl, rfl, rfl, rfl⟩

namespace SameStacks

theorem of_eq (hp : S'.proc = S.proc) (ht : S'.thread = S.thread) (hc : S'.cpu = S.cpu)
    (hg : ∀ n, S.page n = .reserved ∨ (∃ p, S.page n = .stack p) → S'.page n = S.page n)
    (hi : S'.initproc = S.initproc) : SameStacks S S' := by
  refine ⟨?_, ?_, ?_, ?_, fun _ => .inl (by rw [ht]), hg, ?_, ?_, hi⟩ <;> simp [hp, ht, hc]

theorem setProc (h : SameStacks S S₁) (p : PId) {f : Entry → Entry}
    (hf : ∀ e, (f e).kstack = e.kstack) : SameStacks S (S₁.setProc p f) := by
  refine ⟨fun q => (?_ : _ = (S₁.proc q).kstack).trans (h.proc q), h.kstack, h.tf, h.context,
    h.parent, h.page, h.esp0, h.ktop, h.initproc⟩
  simp only [Kernel.setProc, update_apply]
  split
  · rename_i hq
    rw [hf, hq]
  · rfl

theorem states (h : SameStacks S S₁) (hth : ∀ s, (S'.thread s).kstack = (S₁.thread s).kstack ∧
      (S'.thread s).tf = (S₁.thread s).tf ∧ (S'.thread s).context = (S₁.thread s).context ∧
      (S'.thread s).parent = (S₁.thread s).parent)
    (hp : S'.proc = S₁.proc) (hg : S'.page = S₁.page) (hc : S'.cpu = S₁.cpu)
    (hi : S'.initproc = S₁.initproc) : SameStacks S S' where
  proc q := by rw [hp, h.proc]
  kstack s := (hth s).1.trans (h.kstack s)
  tf s := (hth s).2.1.trans (h.tf s)
  context s := (hth s).2.2.1.trans (h.context s)
  parent s := by
    rw [(hth s).2.2.2]
    exact h.parent s
  page n hn := by rw [hg, h.page n hn]
  esp0 c := by rw [hc, h.esp0]
  ktop c := by rw [hc, h.ktop]
  initproc := hi.trans h.initproc

theorem setThread (S : Kernel ncpu) (s : Slot) {f : KThread → KThread}
    (hf : ∀ t, (f t).kstack = t.kstack ∧ (f t).tf = t.tf ∧ (f t).context = t.context ∧
      ((f t).parent = t.parent ∨ (f t).parent = none)) : SameStacks S (S.setThread s f) := by
  have hth : ∀ u, (S.setThread s f).thread u = S.thread u ∨
      (S.setThread s f).thread u = f (S.thread u) := by
    intro u
    by_cases hu : u = s
    · exact .inr (by rw [hu, setThread_self])
    · exact .inl (setThread_ne S hu f)
  refine ⟨fun _ => rfl, fun u => ?_, fun u => ?_, fun u => ?_, fun u => ?_, fun _ _ => rfl,
    fun _ => rfl, fun _ => rfl, rfl⟩
  all_goals obtain h | h := hth u <;> rw [h]
  · exact (hf _).1
  · exact (hf _).2.1
  · exact (hf _).2.2.1
  · exact .inl rfl
  · exact (hf _).2.2.2

theorem wakeup1 (h : SameStacks S S₁) (chan : Chan) : SameStacks S (S₁.wakeup1 chan) := by
  refine h.states (fun s => ?_) rfl rfl rfl rfl
  simp only [Kernel.wakeup1]
  split
  · exact wake_same chan _
  · exact ⟨rfl, rfl, rfl, rfl⟩

end SameStacks

/-- What operation `e` leaves alone on the way from `S` to `S'`. -/
structure Frame (e : KOp) (S S' : Kernel ncpu) : Prop where
  quiet : e.quiet = true → Quiet S S'
  files : e.keepsFiles = true → SameFiles S S'
  holds : e.keepsHolds = true → SameHolds S S'
  kstacks : e.keepsStacks = true → SameStacks S S'

namespace Frame

variable {e : KOp}

theorem of_eq (hp : S'.proc = S.proc := by rfl) (ht : S'.thread = S.thread := by rfl)
    (hc : S'.cpu = S.cpu := by rfl) (hk : S'.code = S.code := by rfl)
    (hx : S'.exiting = S.exiting := by rfl) (hg : S'.page = S.page := by rfl)
    (hi : S'.initproc = S.initproc := by rfl)
    (hh : e.keepsHolds = true → SameHolds S S' := by
      first | exact fun _ => ⟨rfl, rfl, rfl, rfl⟩ | simp) : Frame e S S' :=
  ⟨fun _ => .of_eq hp ht hc hk, fun _ => sameFiles_of_eq hp hx, hh,
    fun _ => .of_eq hp ht hc (fun _ _ => by rw [hg]) hi⟩

theorem refl (e : KOp) (S : Kernel ncpu) : Frame e S S := of_eq

theorem page (e : KOp) (S : Kernel ncpu) {page : ℕ → Use} (hg : e.keepsStacks = true →
    ∀ n, S.page n = .reserved ∨ (∃ p, S.page n = .stack p) → page n = S.page n) :
    Frame e S { S with page := page } :=
  ⟨fun _ => .of_eq, fun _ => sameFiles_of_eq rfl rfl,
    fun _ => ⟨rfl, rfl, rfl, rfl⟩, fun he => .of_eq rfl rfl rfl (hg he) rfl⟩

theorem wakeup1 (h : Frame e S S₁) (chan : Chan) (ht : S₁.thread = S.thread := by rfl) :
    Frame e S (S₁.wakeup1 chan) := by
  refine ⟨fun he => ?_, fun he => ⟨(h.files he).ofile, (h.files he).cwd, (h.files he).exiting⟩,
    fun he => ?_, fun he => (h.kstacks he).wakeup1 chan⟩
  · have hq := h.quiet he
    have hw := quiet_wakeup1 S₁ chan
    exact ⟨hq.state, hq.parent, hq.threads, fun s => by simpa [ht] using hw.thread s, hq.cpu,
      hq.code⟩
  · have hh := h.holds he
    exact ⟨hh.bufHolder, hh.inodeHolder, hh.outstanding, hh.units⟩

theorem setProc (h : Frame e S S₁) (p : PId) {f : Entry → Entry}
    (hq : e.quiet = true → ∀ t, (f t).state = t.state ∧ (f t).parent = t.parent ∧
      (f t).threads = t.threads := by simp)
    (hf : e.keepsFiles = true → ∀ t, (f t).ofile = t.ofile ∧ (f t).cwd = t.cwd := by simp)
    (hs : e.keepsStacks = true → ∀ t, (f t).kstack = t.kstack := by simp) :
    Frame e S (S₁.setProc p f) :=
  ⟨fun he => (h.quiet he).setProc p (fun t => (hq he t).1) (fun t => (hq he t).2.1)
      fun t => (hq he t).2.2,
    fun he => (h.files he).setProc p (fun t => (hf he t).1) fun t => (hf he t).2,
    fun he => ⟨(h.holds he).bufHolder, (h.holds he).inodeHolder, (h.holds he).outstanding,
      (h.holds he).units⟩,
    fun he => (h.kstacks he).setProc p (hs he)⟩

theorem setThread (e : KOp) (S : Kernel ncpu) (s : Slot) {f : KThread → KThread}
    (hs : e.quiet = true → ∀ t, (f t).state = t.state := by simp)
    (hf : e.keepsStacks = true → SameStacks S (S.setThread s f) := by simp) :
    Frame e S (S.setThread s f) :=
  ⟨fun he => .setThread S s (hs he), fun _ => sameFiles_of_eq rfl rfl,
    fun _ => ⟨rfl, rfl, rfl, rfl⟩, hf⟩

end Frame

theorem kalloc_eq {qs : List ℕ} {u : Use} (h : S.kalloc qs u = some S') :
    ∃ page, S' = { S with page := page } ∧ ∀ n, S.page n ≠ .free → page n = S.page n := by
  simp only [kalloc, Option.ite_none_right_eq_some] at h
  obtain ⟨⟨-, hfree⟩, h⟩ := h
  cases h
  exact ⟨_, rfl, fun n hn => if_neg fun hq => hn (hfree n hq)⟩

theorem allocOr_done {qs : List ℕ} {u : Use} {f : Kernel ncpu → Kernel ncpu} {fail : Kernel ncpu}
    {r : Bool} (h : S.allocOr qs u f fail = some (.done r S')) :
    r = false ∧ S' = fail ∨
      r = true ∧ ∃ page, S' = f { S with page := page } ∧ S.kalloc qs u = some { S with page := page } := by
  unfold allocOr at h
  split at h
  · cases h
    exact .inl ⟨rfl, rfl⟩
  · rw [Option.map_eq_some_iff] at h
    obtain ⟨S₁, h₁, h₂⟩ := h
    obtain ⟨page, rfl, -⟩ := kalloc_eq h₁
    cases h₂
    exact .inr ⟨rfl, page, rfl, h₁⟩

theorem freevm_eq {d : ℕ} (h : S.freevm d = some S') :
    ∃ page, S' = { S with page := page } ∧ ∀ n, S.page n ≠ .vm d → page n = S.page n := by
  simp only [freevm, Option.ite_none_left_eq_some] at h
  obtain ⟨_, h⟩ := h
  cases h
  exact ⟨_, rfl, fun n hn => if_neg hn⟩

theorem kfree_eq {a : ℕ} (h : S.kfree a = some S') :
    ∃ page, S' = { S with page := page } ∧
      ∀ n, a ≠ n * kstacksize ∨ S.page n = .reserved → page n = S.page n := by
  simp only [kfree, Option.ite_none_right_eq_some] at h
  obtain ⟨⟨ha, hres⟩, h⟩ := h
  cases h
  refine ⟨_, rfl, fun n hn => update_of_ne ?_ _ _⟩
  rintro rfl
  obtain hn | hn := hn
  · exact hn (Nat.div_mul_cancel (Nat.dvd_of_mod_eq_zero ha)).symm
  · exact hres hn

theorem withRow_done {R : Type} {p : PId} {o : Option (Outcome ncpu R)} {r : R}
    (h : S.withRow p o = some (.done r S')) :
    (S.proc p).threads = true ∧ o = some (.done r S') := by
  unfold withRow at h
  split at h
  · exact ⟨‹_›, h⟩
  · cases h

theorem withRow_gone {R : Type} {p : PId} {o : Option (Outcome ncpu R)}
    (h : S.withRow p o = some (.gone S')) :
    (S.proc p).threads = true ∧ o = some (.gone S') := by
  unfold withRow at h
  split at h
  · exact ⟨‹_›, h⟩
  · cases h

theorem reap_eq {q : PId} (h : S.reap q = some S') : ∃ page, S' =
    { S with page := page }.setProc q fun e =>
      { e with kstack := 0, state := .unused, pid := 0, parent := none, killed := false } := by
  unfold reap at h
  split at h
  · cases h
  · rename_i S₁ h₁
    split at h
    · cases h
    · rename_i S₂ h₂
      cases h
      obtain ⟨_, rfl, -⟩ := kfree_eq h₁
      obtain ⟨page, rfl, -⟩ := freevm_eq h₂
      exact ⟨page, rfl⟩

theorem first?_eq_some {n : ℕ} {f : Fin n → Bool} {i : Fin n} (h : first? f = some i) :
    f i = true :=
  List.find?_some h

theorem forkFail_done {c : Fin ncpu} {s : Slot} {ch : Choice} {q : PId} {r : Unit}
    (h : S.perform c s ch (.forkFail q) = some (.done r S')) :
    ∃ page, S' = { S with page := page }.setProc q (fun e => { e with kstack := 0, state := .unused }) ∧
      ∀ n, (S.proc q).kstack ≠ n * kstacksize ∨ S.page n = .reserved → page n = S.page n := by
  simp only [perform] at h
  split at h <;> cases h
  rename_i S₁ hk
  obtain ⟨page, rfl, hpage⟩ := kfree_eq hk
  exact ⟨page, rfl, hpage⟩

theorem wait_cases {c : Fin ncpu} {s : Slot} {ch : Choice} {r : Int32}
    (h : S.perform c s ch .wait = some (.done r S')) :
    (∃ q page, S.zombieChild s.1 = some q ∧ r = (S.proc q).pid ∧ S.reap q = some S' ∧
      (S.proc q).parent = some s.1 ∧ (S.proc q).state = .zombie ∧
      S' = { S with page := page }.setProc q fun e =>
        { e with kstack := 0, state := .unused, pid := 0, parent := none, killed := false }) ∨
    S.zombieChild s.1 = none ∧ r = -1 ∧
      ((first? fun q => (S.proc q).parent == some s.1).isNone ∨ (S.proc s.1).killed) ∧ S' = S := by
  simp only [perform] at h
  split at h
  · rename_i q hq
    split at h <;> cases h
    rename_i hr
    obtain ⟨page, hpage⟩ := reap_eq hr
    have hz := first?_eq_some hq
    simp only [Bool.and_eq_true, beq_iff_eq] at hz
    exact .inl ⟨q, page, hq, rfl, hr, hz.1, hz.2, hpage⟩
  · rename_i hnone
    split_ifs at h with hno <;> cases h
    exact .inr ⟨hnone, rfl, hno, rfl⟩

theorem runnable_of_canRun {c : Fin ncpu} {s : Slot} (h : S.canRun c s = true) :
    (S.thread s).state = .runnable := by
  simp only [canRun, Bool.and_eq_true, beq_iff_eq] at h
  exact h.1.1

theorem threadExit_gone {c : Fin ncpu} {s : Slot} {ch : Choice}
    (h : S.perform c s ch .threadExit = some (.gone S')) :
    S' = ((S.setThread s fun k => { k with state := .zombie }).threadGone s).leave c s ch.depth := by
  obtain ⟨-, h⟩ := withRow_gone h
  split at h <;> cases h
  rfl

theorem perform_frame {c : Fin ncpu} {s : Slot} {ch : Choice} {e : KOp} {r : e.Ans}
    (h : S.perform c s ch e = some (.done r S')) : Frame e S S' := by
  have halloc : ∀ {qs u page}, S.kalloc qs u = some { S with page := page } →
      ∀ n, S.page n = .reserved ∨ (∃ p, S.page n = .stack p) → page n = S.page n := by
    intro qs u page hk n hn
    obtain ⟨_, heq, hpage⟩ := kalloc_eq hk
    cases heq
    refine hpage n ?_
    obtain hn | ⟨p, hn⟩ := hn <;> simp [hn]
  cases e with
  | killed | pgdir | ofile | cwd | choose =>
    cases h
    exact .refl _ _
  | setKilled | setPgdir | setOfile | setCwd =>
    cases h
    exact .setProc (.refl _ _) _
  | procAlloc =>
    cases h
    unfold procAlloc
    split
    · exact .refl _ _
    · exact ⟨by simp, by simp, fun _ => ⟨rfl, rfl, rfl, rfl⟩, by simp⟩
  | stackAlloc | copyuvm =>
    obtain ⟨-, rfl⟩ | ⟨-, page, rfl, hk⟩ := allocOr_done h
    · exact .setProc (.refl _ _) _
    · exact .setProc (.page _ _ fun _ => halloc hk) _
  | procInit | threadInit | threadReady =>
    cases h
    exact ⟨by simp, fun _ => sameFiles_of_eq rfl rfl, fun _ => ⟨rfl, rfl, rfl, rfl⟩, by simp⟩
  | forkFail np =>
    obtain ⟨page, rfl, -⟩ := forkFail_done h
    exact .setProc (.page _ _ (by simp)) _
  | forkThread np =>
    cases h
    have hf : Frame (.forkThread np) S (S.setProc np fun e => { e with parent := some s.1 }) :=
      .setProc (.refl _ _) _
    exact ⟨by simp, fun he => ⟨(hf.files he).ofile, (hf.files he).cwd, rfl⟩,
      fun _ => ⟨rfl, rfl, rfl, rfl⟩, by simp⟩
  | forkFile np fd =>
    cases h
    refine .setProc (.refl _ _) _ (fun _ t => ?_) (by simp) fun _ t => ?_ <;> split <;> simp
  | forkCwd np =>
    simp only [perform] at h
    split at h
    · cases h
    · cases h
      exact .setProc (.refl _ _) _
  | forkDone np =>
    cases h
    have hf : Frame (.forkDone np) S (S.setProc np fun e => { e with state := .runnable }) :=
      .setProc (.refl _ _) _
    exact ⟨by simp, fun he => ⟨(hf.files he).ofile, (hf.files he).cwd, rfl⟩,
      fun _ => ⟨rfl, rfl, rfl, rfl⟩, by simp⟩
  | threadAlloc =>
    cases (withRow_done h).2
    unfold threadAlloc
    split
    · exact .refl _ _
    · exact ⟨by simp, fun _ => sameFiles_of_eq rfl rfl, fun _ => ⟨rfl, rfl, rfl, rfl⟩, by simp⟩
  | threadExit =>
    obtain ⟨-, h⟩ := withRow_done h
    split at h
    · cases h
      exact .setProc (.setThread _ _ _) _
    · cases h
  | threadJoin tid =>
    obtain ⟨-, h⟩ := withRow_done h
    split at h
    · cases h
      exact .setThread _ _ _ (by simp) fun _ => .setThread _ _ fun _ => ⟨rfl, rfl, rfl, .inr rfl⟩
    · cases h
      exact .refl _ _
    · split at h
      · cases h
        exact .refl _ _
      · cases h
  | exitEnter =>
    simp only [perform] at h
    split at h
    · cases h
    · cases h
      exact ⟨fun _ => .of_eq, by simp, fun _ => ⟨rfl, rfl, rfl, rfl⟩,
        fun _ => .of_eq rfl rfl rfl (fun _ _ => rfl) rfl⟩
  | exitDone => exact r.elim
  | wait =>
    obtain ⟨q, page, -, -, -, -, -, rfl⟩ | ⟨-, -, -, rfl⟩ := wait_cases h
    · exact .setProc (.page _ _ (by simp)) _
    · exact .refl _ _
  | kill pid =>
    cases h
    refine ⟨fun _ => quiet_kill S pid, fun _ => ?_, fun _ => ?_, fun _ => ?_⟩
    · unfold kill
      split
      · exact sameFiles_of_eq rfl rfl
      · have hf := SameFiles.setProc (sameFiles_of_eq (S := S) rfl rfl) ‹PId›
          (f := fun e => { e with killed := true }) (fun _ => rfl) fun _ => rfl
        exact ⟨hf.ofile, hf.cwd, rfl⟩
    · unfold kill
      split <;> exact ⟨rfl, rfl, rfl, rfl⟩
    · have hr : SameStacks S S := .of_eq rfl rfl rfl (fun _ _ => rfl) rfl
      unfold kill
      split
      · exact hr
      · have hf := hr.setProc ‹PId› (f := fun e => { e with killed := true }) fun _ => rfl
        refine hf.states (fun u => ?_) rfl rfl rfl rfl
        dsimp only
        split <;> exact ⟨rfl, rfl, rfl, rfl⟩
  | wakeup chan =>
    cases h
    exact .wakeup1 (.refl _ _) _
  | await chan intr =>
    simp only [perform] at h
    split at h
    · cases h
      exact .refl _ _
    · split at h
      · cases h
        exact .refl _ _
      · cases h
    · cases h
  | setupkvm =>
    simp only [perform] at h
    split at h
    · cases h
      exact .refl _ _
    · simp only [Option.map_eq_some_iff] at h
      obtain ⟨S₁, hk, h⟩ := h
      obtain ⟨page, rfl, -⟩ := kalloc_eq hk
      cases h
      exact .page _ _ fun _ => halloc hk
  | allocuvm d =>
    simp only [perform] at h
    split at h
    · simp only [Option.map_eq_some_iff] at h
      obtain ⟨S₁, hk, h⟩ := h
      obtain ⟨page, rfl, -⟩ := kalloc_eq hk
      cases h
      exact .page _ _ fun _ => halloc hk
    · cases h
      exact .refl _ _
  | deallocuvm d =>
    simp only [perform] at h
    split at h
    · rename_i hvm
      cases h
      refine .page _ _ fun _ n hn => if_neg fun hq => ?_
      obtain hn | ⟨p, hn⟩ := hn <;> simp [hvm n hq] at hn
    · cases h
  | pipeFree =>
    simp only [perform] at h
    split at h
    · rename_i hpipe
      cases h
      refine .page _ _ fun _ n hn => update_of_ne ?_ _ _
      rintro rfl
      obtain hn | ⟨p, hn⟩ := hn <;> simp [hpipe] at hn
    · cases h
  | switchuvm =>
    simp only [perform] at h
    split at h
    · cases h
    · cases h
      exact ⟨fun _ => .setCpu S c fun _ => rfl, fun _ => sameFiles_of_eq rfl rfl,
        fun _ => ⟨rfl, rfl, rfl, rfl⟩, by simp⟩
  | freevm d =>
    simp only [perform] at h
    split at h
    · cases h
    · rename_i S₁ hk
      obtain ⟨page, rfl, hpage⟩ := freevm_eq hk
      cases h
      refine .page _ _ fun _ n hn => hpage n ?_
      obtain hn | ⟨p, hn⟩ := hn <;> simp [hn]
  | pipeAlloc =>
    obtain ⟨-, rfl⟩ | ⟨-, page, rfl, hk⟩ := allocOr_done h
    · exact .refl _ _
    · exact .page _ _ fun _ => halloc hk
  | setTf =>
    cases h
    exact .setThread _ _ _
  | forkret =>
    cases h
    exact .of_eq
  | commitEnd =>
    cases h
    refine .wakeup1 ?_ _
    exact .of_eq
  | bget | ilock | beginOp =>
    simp only [perform] at h
    split at h
    · cases h
    · cases h
      exact .of_eq
  | iderw b =>
    simp only [perform] at h
    split at h
    · cases h
      exact .refl _ _
    · cases h
  | logWrite b =>
    simp only [perform] at h
    split at h
    · cases h
    · cases h
      exact .refl _ _
  | brelse | iunlock =>
    simp only [perform] at h
    split at h
    · cases h
    · cases h
      refine .wakeup1 ?_ _
      exact .of_eq
  | iputTest ip =>
    simp only [perform] at h
    split at h
    · cases h
      exact .refl _ _
    · cases h
    · cases h
      exact .of_eq
  | iputEnd ip freed =>
    simp only [perform] at h
    split at h
    · cases h
      refine .wakeup1 ?_ _
      exact .of_eq
    · cases h
      exact .refl _ _
  | endOp =>
    simp only [perform] at h
    split at h
    · cases h
    · split at h
      · cases h
        exact .of_eq
      · cases h
        refine .wakeup1 ?_ _
        exact .of_eq
  | panic => exact r.elim

end Xv6.Proc
