import Xv6.User.Alone

/-!
# What the checks rest on

Threads of one process share its memory, so between the checks at the beginning of a call
and its later accesses others may run.  What a call itself contributes is a discipline: it
accepts a pointer only below `KERNBASE`, it looks at a string only below the `proc->sz`
that it has read, and after `growproc` or the commit of `exec` it does not touch user
memory any more.

A function that neither resizes the memory nor needs to know anything on entry is `Loose`;
nearly all are, and loose code composes (`loose_bind`).
-/

namespace Xv6.User

open Prog Fs

/-- What a call knows. -/
structure Known where
  /-- A value of `proc->sz` that it has read. -/
  lim : ℕ
  /-- It does not touch user memory any more. -/
  finished : Bool

/-- What must be known before an operation. -/
def Op.pre : Op → Known → Prop
  | .fits i _, g => g.finished = false ∧ i.toNat < kernbase
  | .scan s a, g => g.finished = false ∧ s.toNat ≤ a.toNat ∧ a.toNat < g.lim
  | .ask .rest, _ => True
  | _, g => g.finished = false

/-- What is known after it; `proc->sz` is never `KERNBASE` or more. -/
def Op.next : (e : Op) → e.Ans → Known → Option Known
  | .size, r, g => if r.toNat < kernbase then some { g with lim := r.toNat } else none
  | .ask (.growproc _), _, _ => some ⟨0, true⟩
  | .ask .commit, _, _ => some ⟨0, true⟩
  | _, _, g => some g

/-- The code keeps to the discipline. -/
def Follows {α : Type} (p : Code α) (g : Known) : Prop :=
  p.SafeFrom Op.pre Op.next (fun _ _ => True) g

/-- The code keeps to the discipline whatever is known, and is not done with user memory
when it ends. -/
def Loose {α : Type} (p : Code α) : Prop :=
  ∀ (Q : α → Known → Prop) (g : Known), g.finished = false →
    (∀ r g', g'.finished = false → Q r g') → p.SafeFrom Op.pre Op.next Q g

variable {g : Known}

section

variable {α β : Type}

theorem loose_pure (a : α) : Loose (pure a : Code α) := fun _ _ hg hQ =>
  (safeFrom_pure a).mpr (hQ a _ hg)

theorem loose_bind {p : Code α} {f : α → Code β} (hp : Loose p) (hf : ∀ r, Loose (f r)) :
    Loose (p >>= f) := by
  intro Q g hg hQ
  rw [safeFrom_bind]
  exact hp _ g hg fun r g' hg' => hf r Q g' hg' hQ

theorem loose_bindOpt {p : Code (Option α)} {f : Option α → Code β} (hp : Loose p)
    (hnone : Loose (f none)) (hsome : ∀ a, Loose (f (some a))) : Loose (p >>= f) :=
  loose_bind hp fun r => by
    cases r with
    | none => exact hnone
    | some a => exact hsome a

theorem follows_of_loose {p : Code α} (h : Loose p) (hg : g.finished = false) : Follows p g :=
  h _ g hg fun _ _ _ => trivial

/-! ## Single operations -/

theorem loose_of_plain {e : Op} (hpre : ∀ g : Known, g.finished = false → e.pre g)
    (hnext : ∀ r g, e.next r g = some g) : Loose (op e) := by
  intro Q g hg hQ
  rw [op, perform, safeFrom_vis]
  refine ⟨hpre g hg, fun r g' hg' => ?_⟩
  rw [hnext r g] at hg'
  cases hg'
  exact (safeFrom_ret r).mpr (hQ r g hg)

theorem loose_load (a : UInt32) : Loose (op (.load a)) :=
  loose_of_plain (e := .load a) (fun _ hg => hg) fun _ _ => rfl

theorem loose_store (a : UInt32) (bs : List UInt8) : Loose (op (.store a bs)) :=
  loose_of_plain (e := .store a bs) (fun _ hg => hg) fun _ _ => rfl

theorem loose_word (a : UInt32) : Loose (op (.word a)) :=
  loose_of_plain (e := .word a) (fun _ hg => hg) fun _ _ => rfl

/-- The questions whose answer changes the size of the process. -/
def Ask.resizes : Ask → Bool
  | .growproc _ | .commit => true
  | _ => false

theorem loose_ask (q : Ask) (h : q.resizes = false) : Loose (ask q) := by
  refine loose_of_plain (e := .ask q) (fun g hg => ?_) fun r g => ?_
  · cases q <;> first | exact hg | trivial
  · cases q with
    | growproc n => cases h
    | commit => cases h
    | _ => rfl

theorem safeFrom_size {Q : UInt32 → Known → Prop} (hg : g.finished = false)
    (hQ : ∀ r : UInt32, r.toNat < kernbase → Q r { g with lim := r.toNat }) :
    (op .size).SafeFrom Op.pre Op.next Q g := by
  rw [op, perform, safeFrom_vis]
  refine ⟨hg, fun r g' hg' => ?_⟩
  rw [safeFrom_ret]
  dsimp only [Op.next] at hg'
  split at hg'
  · rename_i hr
    cases hg'
    exact hQ r hr
  · cases hg'

theorem loose_size : Loose (op .size) := fun _ _ hg hQ => safeFrom_size hg fun r _ => hQ r _ hg

theorem safeFrom_scan {Q : UInt8 → Known → Prop} {s a : UInt32} (hg : g.finished = false)
    (hs : s.toNat ≤ a.toNat) (ha : a.toNat < g.lim) (hQ : ∀ b, Q b g) :
    (op (.scan s a)).SafeFrom Op.pre Op.next Q g := by
  rw [op, perform, safeFrom_vis]
  refine ⟨⟨hg, hs, ha⟩, fun r g' hg' => ?_⟩
  cases hg'
  exact (safeFrom_ret r).mpr (hQ r)

theorem safeFrom_fits {Q : Bool → Known → Prop} {i size : UInt32} (hg : g.finished = false)
    (hi : i.toNat < kernbase) (hQ : ∀ b, Q b g) :
    (op (.fits i size)).SafeFrom Op.pre Op.next Q g := by
  rw [op, perform, safeFrom_vis]
  refine ⟨⟨hg, hi⟩, fun r g' hg' => ?_⟩
  cases hg'
  exact (safeFrom_ret r).mpr (hQ r)

/-! ## `syscall.c` -/

theorem loose_fetchint (addr : UInt32) : Loose (fetchint addr) := by
  unfold fetchint
  refine loose_bind loose_size fun sz => ?_
  split
  · exact loose_pure _
  · refine loose_bind loose_size fun sz' => ?_
    split
    · exact loose_pure _
    · exact loose_bind (loose_word addr) fun _ => loose_pure _

theorem safeFrom_fetchstrFrom {s : UInt32} {Q : Option UInt32 → Known → Prop}
    (hg : g.finished = false) (hlim : g.lim < kernbase) (hQ : ∀ r, Q r g) :
    ∀ (k : ℕ) {a : UInt32}, a.toNat + k ≤ g.lim → s.toNat ≤ a.toNat →
      (fetchstrFrom s k a).SafeFrom Op.pre Op.next Q g
  | 0, _, _, _ => (safeFrom_pure _).mpr (hQ _)
  | k + 1, a, hk, hs => by
    have hnext : (a + 1).toNat = a.toNat + 1 :=
      toNat_offset (j := 1) (by unfold kernbase at hlim; omega)
    rw [fetchstrFrom, safeFrom_bind]
    refine safeFrom_scan hg hs (by omega) fun b => ?_
    split
    · exact (safeFrom_pure _).mpr (hQ _)
    · exact safeFrom_fetchstrFrom hg hlim hQ k (by omega) (by omega)

theorem loose_fetchstr (addr : UInt32) : Loose (fetchstr addr) := by
  intro Q g hg hQ
  unfold fetchstr
  rw [safeFrom_bind]
  refine safeFrom_size hg fun sz hsz => ?_
  split
  · exact (safeFrom_pure _).mpr (hQ _ _ hg)
  · rw [safeFrom_bind]
    refine safeFrom_size hg fun ep hep => ?_
    by_cases hle : addr.toNat ≤ ep.toNat
    · refine safeFrom_fetchstrFrom (g := ⟨ep.toNat, g.finished⟩) hg hep (fun r => hQ r _ hg) _ ?_ le_rfl
      dsimp only
      omega
    · rw [Nat.sub_eq_zero_of_le (by omega)]
      exact (safeFrom_pure _).mpr (hQ _ _ hg)

theorem loose_argptr (esp : UInt32) (n : ℕ) (size : UInt32) : Loose (argptr esp n size) := by
  unfold argptr
  refine loose_bindOpt (loose_fetchint _) (loose_pure _) fun i => ?_
  intro Q g hg hQ
  dsimp only
  rw [safeFrom_bind]
  refine safeFrom_size hg fun sz hsz => ?_
  split
  · exact (safeFrom_pure _).mpr (hQ _ _ hg)
  · rename_i hlt
    rw [ge_iff_le, UInt32.not_le, UInt32.lt_iff_toNat_lt] at hlt
    rw [safeFrom_bind]
    refine safeFrom_fits hg (by omega) fun b => ?_
    split
    · exact (safeFrom_pure _).mpr (hQ _ _ hg)
    · exact (safeFrom_pure _).mpr (hQ _ _ hg)

theorem loose_argstr (esp : UInt32) (n : ℕ) : Loose (argstr esp n) := by
  unfold argstr
  refine loose_bindOpt (loose_fetchint _) (loose_pure _) fun addr => ?_
  exact loose_bindOpt (loose_fetchstr addr) (loose_pure _) fun _ => loose_pure _

theorem loose_argfd (esp : UInt32) (n : ℕ) : Loose (argfd esp n) := by
  unfold argfd
  refine loose_bindOpt (loose_fetchint _) (loose_pure _) fun fd => ?_
  dsimp only
  split
  · exact loose_pure _
  · exact loose_ask (.ofile fd) rfl

/-! ## Files -/

theorem loose_loads : ∀ (k : ℕ) (a : UInt32), Loose (loads k a)
  | 0, _ => loose_pure ()
  | k + 1, a => loose_bind (loose_load a) fun _ => loose_loads k (a + 1)

theorem loose_stores : ∀ (bs : List UInt8) (a : UInt32), Loose (stores bs a)
  | [], _ => loose_pure ()
  | b :: bs, a => loose_bind (loose_store a [b]) fun _ => loose_stores bs (a + 1)

theorem loose_piperead (addr n : UInt32) : Loose (piperead addr n) := by
  unfold piperead
  exact loose_bindOpt (loose_ask .pipeData rfl) (loose_pure _) fun data =>
    loose_bind (loose_stores _ addr) fun _ => loose_pure _

theorem loose_pipewriteFrom (addr : UInt32) (k i : ℕ) : Loose (pipewriteFrom addr k i) := by
  induction k generalizing i with
  | zero => exact loose_pure _
  | succ k ih =>
    rw [pipewriteFrom]
    refine loose_bind (loose_ask (.pipeRoom i) rfl) fun r => ?_
    split
    · exact loose_bind (loose_load _) fun _ => ih (i + 1)
    · exact loose_pure _

theorem loose_pipewrite (addr n : UInt32) : Loose (pipewrite addr n) := by
  unfold pipewrite
  refine loose_bind (loose_pipewriteFrom addr _ 0) fun r => ?_
  split
  · exact loose_pure _
  · exact loose_pure _

theorem loose_consolereadFrom (dst : UInt32) (k i : ℕ) : Loose (consolereadFrom dst k i) := by
  induction k generalizing i with
  | zero => exact loose_pure _
  | succ k ih =>
    rw [consolereadFrom]
    refine loose_bindOpt (loose_ask (.getc i) rfl) (loose_pure _) fun c => ?_
    dsimp only
    split
    · exact loose_pure _
    · refine loose_bind (loose_store _ _) fun _ => ?_
      split
      · exact loose_pure _
      · exact ih (i + 1)

theorem loose_consoleread (dst n : UInt32) : Loose (consoleread dst n) := by
  unfold consoleread
  exact loose_bindOpt (loose_consolereadFrom dst _ 0) (loose_pure _) fun i => loose_pure _

theorem loose_consolewrite (buf n : UInt32) : Loose (consolewrite buf n) :=
  loose_bind (loose_loads _ buf) fun _ => loose_pure _

theorem loose_readiFrom : ∀ (k : ℕ) (dst off : UInt32), Loose (readiFrom k dst off)
  | 0, _, _ => loose_pure ()
  | k + 1, dst, off =>
    loose_bind (loose_ask (.byte off) rfl) fun b =>
      loose_bind (loose_store dst [b]) fun _ => loose_readiFrom k (dst + 1) (off + 1)

theorem loose_readi (dst n : UInt32) : Loose (readi dst n) := by
  unfold readi
  refine loose_bind (loose_ask (.inode 0) rfl) fun ip => ?_
  split
  · split
    · exact loose_consoleread dst n
    · exact loose_pure _
  · split
    · exact loose_pure _
    · exact loose_bind (loose_readiFrom _ dst _) fun _ => loose_pure _

theorem loose_fileread (f : OpenFile) (addr n : UInt32) : Loose (fileread f addr n) := by
  unfold fileread
  split
  · exact loose_pure _
  · split
    · exact loose_piperead addr n
    · exact loose_readi addr n
    · exact loose_pure _

theorem loose_writei (src : UInt32) (i n : ℕ) : Loose (writei src i n) := by
  unfold writei
  refine loose_bind (loose_ask (.inode i) rfl) fun ip => ?_
  dsimp only
  split
  · split
    · exact loose_bind (loose_consolewrite src _) fun _ => loose_pure _
    · exact loose_pure _
  · split
    · exact loose_pure _
    · split
      · exact loose_pure _
      · exact loose_bind (loose_loads n src) fun _ => loose_pure _

theorem loose_filewriteFrom (addr : UInt32) (k left i : ℕ) :
    Loose (filewriteFrom addr k left i) := by
  induction k generalizing left i with
  | zero => exact loose_pure _
  | succ k ih =>
    rw [filewriteFrom]
    split
    · exact loose_pure _
    · refine loose_bind (loose_writei _ _ _) fun b => ?_
      split
      · exact ih _ _
      · exact loose_pure _

theorem loose_filewrite (f : OpenFile) (addr n : UInt32) : Loose (filewrite f addr n) := by
  unfold filewrite
  split
  · exact loose_pure _
  · split
    · exact loose_pipewrite addr n
    · refine loose_bind (loose_filewriteFrom addr _ _ 0) fun i => ?_
      split
      · exact loose_pure _
      · exact loose_pure _
    · exact loose_pure _

theorem loose_filestat (f : OpenFile) (st : UInt32) : Loose (filestat f st) := by
  unfold filestat
  split
  · refine loose_bind (loose_ask .stati rfl) fun s => ?_
    refine loose_bind ?_ fun _ => loose_pure _
    exact loose_bind (loose_store _ _) fun _ => loose_bind (loose_store _ _) fun _ =>
      loose_bind (loose_store _ _) fun _ => loose_bind (loose_store _ _) fun _ => loose_store _ _
  · exact loose_pure _

/-! ## Paths -/

theorem loose_skipWhile (p : UInt8 → Bool) (k : ℕ) (a : UInt32) : Loose (skipWhile p k a) := by
  induction k generalizing a with
  | zero => exact loose_pure _
  | succ k ih =>
    rw [skipWhile]
    refine loose_bind (loose_load a) fun b => ?_
    split
    · exact ih (a + 1)
    · exact loose_pure _

theorem loose_skipelem (path : UInt32) : Loose (skipelem path) := by
  unfold skipelem
  refine loose_bind (loose_skipWhile _ _ path) fun s => loose_bind (loose_load s) fun b => ?_
  split
  · exact loose_pure _
  · exact loose_bind (loose_skipWhile _ _ s) fun e => loose_bind (loose_loads _ s) fun _ =>
      loose_bind (loose_skipWhile _ _ e) fun _ => loose_pure _

theorem loose_namexFrom (w : ℕ) (parent : Bool) (k : ℕ) (path : UInt32) :
    Loose (namexFrom w parent k path) := by
  induction k generalizing path with
  | zero => exact loose_pure _
  | succ k ih =>
    rw [namexFrom]
    refine loose_bindOpt (loose_skipelem path) (loose_pure _) fun next => ?_
    refine loose_bind (loose_ask (.isDir w next) rfl) fun b => ?_
    split
    · refine loose_bind (loose_load next) fun c => ?_
      split
      · exact loose_pure _
      · refine loose_bind (loose_ask (.dirlookup w next) rfl) fun b' => ?_
        split
        · exact ih next
        · exact loose_pure _
    · exact loose_pure _

theorem loose_namex (w : ℕ) (path : UInt32) (parent : Bool) : Loose (namex w path parent) :=
  loose_bind (loose_load path) fun _ => loose_namexFrom w parent _ path

theorem loose_walk (w : ℕ) (path : UInt32) (parent : Bool) :
    Loose (do if ← namex w path parent then ask .rest else pure (-1)) := by
  refine loose_bind (loose_namex w path parent) fun b => ?_
  split
  · exact loose_ask .rest rfl
  · exact loose_pure _

theorem loose_copyArgs (as : List UInt32) (i : ℕ) : Loose (copyArgs i as) := by
  induction as generalizing i with
  | nil => exact loose_pure _
  | cons a as ih =>
    have hlen : Loose (strlen a) := loose_bind (loose_skipWhile _ _ a) fun _ => loose_pure _
    rw [copyArgs]
    refine loose_bind hlen fun _ => ?_
    refine loose_bind hlen fun n => ?_
    refine loose_bind (loose_loads _ a) fun _ => ?_
    refine loose_bind (loose_ask (.copyout i) rfl) fun b => ?_
    split
    · exact ih (i + 1)
    · exact loose_pure _

theorem loose_lastElem (k : ℕ) (s last : UInt32) : Loose (lastElem k s last) := by
  induction k generalizing s last with
  | zero => exact loose_pure _
  | succ k ih =>
    rw [lastElem]
    refine loose_bind (loose_load s) fun c => ?_
    split
    · exact loose_pure _
    · exact ih (s + 1) _

theorem loose_safestrcpy (k : ℕ) (t : UInt32) : Loose (safestrcpy k t) := by
  induction k generalizing t with
  | zero => exact loose_pure _
  | succ k ih =>
    rw [safestrcpy]
    refine loose_bind (loose_load t) fun c => ?_
    split
    · exact loose_pure _
    · exact ih (t + 1)

theorem loose_fetchArgv (uargv : UInt32) (k i : ℕ) : Loose (fetchArgv uargv k i) := by
  induction k generalizing i with
  | zero => exact loose_pure _
  | succ k ih =>
    rw [fetchArgv]
    refine loose_bindOpt (loose_fetchint _) (loose_pure _) fun uarg => ?_
    dsimp only
    split
    · exact loose_pure _
    · refine loose_bind (loose_fetchstr uarg) fun r' => ?_
      cases r' with
      | none => exact loose_pure _
      | some _ =>
        exact loose_bindOpt (ih (i + 1)) (loose_pure _) fun argv => loose_pure _

end

/-! ## The calls -/

theorem safeFrom_resize {q : Ask} (hq : (∃ n, q = .growproc n) ∨ q = .commit) {α : Type}
    {f : q.Ans → Code α} (hf : ∀ r, (f r).SafeFrom Op.pre Op.next (fun _ _ => True) ⟨0, true⟩)
    (hg : g.finished = false) : (ask q >>= f).SafeFrom Op.pre Op.next (fun _ _ => True) g := by
  rw [safeFrom_bind, ask, perform, safeFrom_vis]
  rcases hq with ⟨n, rfl⟩ | rfl
  · refine ⟨hg, fun r g' hg' => ?_⟩
    cases hg'
    exact (safeFrom_ret r).mpr (hf r)
  · refine ⟨hg, fun r g' hg' => ?_⟩
    cases hg'
    exact (safeFrom_ret r).mpr (hf r)

theorem loose_sysRead (esp : UInt32) : Loose (sysRead esp) := by
  unfold sysRead
  refine loose_bindOpt (loose_argfd esp 0) (loose_pure _) fun f => ?_
  refine loose_bindOpt (loose_fetchint _) (loose_pure _) fun n => ?_
  exact loose_bindOpt (loose_argptr esp 1 n) (loose_pure _) fun p => loose_fileread f p n

theorem loose_sysWrite (esp : UInt32) : Loose (sysWrite esp) := by
  unfold sysWrite
  refine loose_bindOpt (loose_argfd esp 0) (loose_pure _) fun f => ?_
  refine loose_bindOpt (loose_fetchint _) (loose_pure _) fun n => ?_
  exact loose_bindOpt (loose_argptr esp 1 n) (loose_pure _) fun p => loose_filewrite f p n

theorem loose_sysFstat (esp : UInt32) : Loose (sysFstat esp) := by
  unfold sysFstat
  refine loose_bindOpt (loose_argfd esp 0) (loose_pure _) fun f => ?_
  exact loose_bindOpt (loose_argptr esp 1 statSize) (loose_pure _) fun st => loose_filestat f st

theorem loose_sysPipe (esp : UInt32) : Loose (sysPipe esp) := by
  unfold sysPipe
  refine loose_bindOpt (loose_argptr esp 0 8) (loose_pure _) fun fd => ?_
  refine loose_bindOpt (loose_ask .pipealloc rfl) (loose_pure _) fun fds => ?_
  exact loose_bind (loose_store _ _) fun _ => loose_bind (loose_store _ _) fun _ =>
    loose_pure _

theorem loose_sysLink (esp : UInt32) : Loose (sysLink esp) := by
  unfold sysLink
  refine loose_bindOpt (loose_argstr esp 0) (loose_pure _) fun old => ?_
  refine loose_bindOpt (loose_argstr esp 1) (loose_pure _) fun new => ?_
  refine loose_bind (loose_namex 0 old false) fun b => ?_
  split
  · refine loose_bind (loose_ask .linkable rfl) fun b => ?_
    split
    · exact loose_walk 1 new true
    · exact loose_pure _
  · exact loose_pure _

theorem loose_onPath (esp : UInt32) (parent : Bool) :
    Loose (onPath esp fun path => namex 0 path parent) := by
  unfold onPath
  exact loose_bindOpt (loose_argstr esp 0) (loose_pure _) fun path => loose_walk 0 path parent

theorem loose_sysOpen (esp : UInt32) : Loose (sysOpen esp) := by
  unfold sysOpen
  refine loose_bindOpt (loose_argstr esp 0) (loose_pure _) fun path => ?_
  refine loose_bindOpt (loose_fetchint _) (loose_pure _) fun omode => ?_
  dsimp only
  split
  · exact loose_walk 0 path true
  · exact loose_walk 0 path false

theorem loose_sysMknod (esp : UInt32) : Loose (sysMknod esp) := by
  unfold sysMknod
  refine loose_bindOpt (loose_argstr esp 0) (loose_pure _) fun path => ?_
  refine loose_bindOpt (loose_fetchint _) (loose_pure _) fun _ => ?_
  exact loose_bindOpt (loose_fetchint _) (loose_pure _) fun _ => loose_walk 0 path true

theorem loose_onInts (esp : UInt32) (k n : ℕ) : Loose (onInts esp k n) := by
  induction k generalizing n with
  | zero => exact loose_ask .rest rfl
  | succ k ih =>
    rw [onInts]
    exact loose_bindOpt (loose_fetchint _) (loose_pure _) fun _ => ih (n + 1)

theorem loose_onFd (esp : UInt32) : Loose (onFd esp) := by
  unfold onFd
  exact loose_bindOpt (loose_argfd esp 0) (loose_pure _) fun _ => loose_ask .rest rfl

theorem follows_sysSbrk (esp : UInt32) (hg : g.finished = false) : Follows (sysSbrk esp) g := by
  unfold Follows sysSbrk
  rw [safeFrom_bind]
  refine loose_fetchint _ _ _ hg fun r g' hg' => ?_
  cases r with
  | none => exact (safeFrom_pure _).mpr trivial
  | some n =>
    dsimp only
    rw [safeFrom_bind]
    refine safeFrom_size hg' fun addr _ => ?_
    refine safeFrom_resize (.inl ⟨n, rfl⟩) (fun r => ?_) hg'
    split
    · exact (safeFrom_pure _).mpr trivial
    · exact (safeFrom_pure _).mpr trivial

theorem follows_exec (path : UInt32) (argv : List UInt32) (hg : g.finished = false) :
    Follows (exec path argv) g := by
  unfold Follows exec
  rw [safeFrom_bind]
  refine loose_namex 0 path false _ _ hg fun b g1 h1 => ?_
  split
  · rw [safeFrom_bind]
    refine loose_ask .loads rfl _ _ h1 fun b g2 h2 => ?_
    split
    · rw [safeFrom_bind]
      refine loose_copyArgs argv 0 _ _ h2 fun b g3 h3 => ?_
      split
      · rw [safeFrom_bind]
        refine loose_lastElem _ path path _ _ h3 fun last g4 h4 => ?_
        rw [safeFrom_bind]
        refine loose_safestrcpy 15 last _ _ h4 fun _ g5 h5 => ?_
        exact safeFrom_resize (f := pure) (.inr rfl) (fun r => (safeFrom_pure r).mpr trivial) h5
      · exact (safeFrom_pure _).mpr trivial
    · exact (safeFrom_pure _).mpr trivial
  · exact (safeFrom_pure _).mpr trivial

theorem follows_sysExec (esp : UInt32) (hg : g.finished = false) : Follows (sysExec esp) g := by
  unfold Follows sysExec
  rw [safeFrom_bind]
  refine loose_argstr esp 0 _ _ hg fun r g1 h1 => ?_
  cases r with
  | none => exact (safeFrom_pure _).mpr trivial
  | some path =>
    dsimp only
    rw [safeFrom_bind]
    refine loose_fetchint _ _ _ h1 fun r g2 h2 => ?_
    cases r with
    | none => exact (safeFrom_pure _).mpr trivial
    | some uargv =>
      dsimp only
      rw [safeFrom_bind]
      refine loose_fetchArgv uargv _ 0 _ _ h2 fun r g3 h3 => ?_
      cases r with
      | none => exact (safeFrom_pure _).mpr trivial
      | some argv => exact follows_exec path argv h3

theorem follows_code (c : Syscall) (esp : UInt32) : Follows (c.code esp) ⟨0, false⟩ := by
  cases c with
  | dup | close => exact follows_of_loose (loose_onFd esp) rfl
  | read => exact follows_of_loose (loose_sysRead esp) rfl
  | write => exact follows_of_loose (loose_sysWrite esp) rfl
  | fstat => exact follows_of_loose (loose_sysFstat esp) rfl
  | pipe => exact follows_of_loose (loose_sysPipe esp) rfl
  | link => exact follows_of_loose (loose_sysLink esp) rfl
  | unlink | mkdir => exact follows_of_loose (loose_onPath esp true) rfl
  | «open» => exact follows_of_loose (loose_sysOpen esp) rfl
  | mknod => exact follows_of_loose (loose_sysMknod esp) rfl
  | chdir => exact follows_of_loose (loose_onPath esp false) rfl
  | exec => exact follows_sysExec esp rfl
  | kill | sleep | kthreadJoin => exact follows_of_loose (loose_onInts esp 1 0) rfl
  | sbrk => exact follows_sysSbrk esp rfl
  | kthreadCreate => exact follows_of_loose (loose_onInts esp 3 0) rfl

end Xv6.User
