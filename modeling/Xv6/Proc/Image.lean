import Xv6.Proc.Code

/-!
# Page directories in the kernel's code

`exec` is the only code that holds a page directory of its own: first the new one, and
after it has stored that in the process, the old one, which it frees.  `Image` says how far
a thread has come with this, and `imageRules` how operations move it: who frees a page
directory is bound to hold it.

Nearly all of the kernel's code has nothing to do with page directories (`KOp.plain`).  What
is left is `exec` and `growproc`, and `image_trap` is about all of it.
-/

namespace Xv6.Proc

open Fs (Inum FileId FsOp FsProg)

/-- How far a thread has come in `exec`. -/
inductive Image where
  | none
  | built (d : ℕ)
  /-- It has read `proc->pgdir`, which was `old`. -/
  | found (d old : ℕ)
  /-- It has stored `d` in `proc->pgdir`, and may still run on `old`. -/
  | swapped (d old : ℕ)
  /-- It runs on the new page directory, and has yet to free `old`. -/
  | switched (d old : ℕ)
  deriving DecidableEq

/-- The operations that have nothing to do with page directories; `allocuvm` and
`deallocuvm` work below them. -/
def KOp.plain : KOp → Bool
  | .setupkvm | .pgdir | .setPgdir _ | .switchuvm | .freevm _ => false
  | _ => true

/-- What it takes to perform an operation. -/
def KOp.imagePre : KOp → Image → Prop
  | .setupkvm, v => v = .none
  | .pgdir, v => v = .none ∨ ∃ d, v = .built d
  | .setPgdir d, v => ∃ old, v = .found d old
  | .switchuvm, v => v = .none ∨ ∃ d old, v = .swapped d old
  | .freevm d, v => v = .built d ∨ ∃ d', v = .switched d' d
  | _, v => v = .none ∨ ∃ d, v = .built d

/-- How far the thread has come after an operation. -/
def KOp.imageNext : (e : KOp) → e.Ans → Image → Image
  | .setupkvm, some d, _ => .built d
  | .pgdir, old, .built d => .found d old
  | .setPgdir d, _, .found _ old => .swapped d old
  | .switchuvm, _, .swapped d old => .switched d old
  | .freevm _, _, _ => .none
  | _, _, v => v

/-- The discipline. -/
def imageRules : Rules KOp KOp.Ans Image := ⟨KOp.imagePre, KOp.imageNext⟩

@[simp] theorem imageRules_pre (e : KOp) : imageRules.pre e = e.imagePre := rfl

@[simp] theorem imageRules_next (e : KOp) (r : e.Ans) (v : Image) :
    imageRules.next e r v = e.imageNext r v := rfl

theorem imagePre_of_plain {e : KOp} (he : e.plain = true) {v : Image} :
    e.imagePre v ↔ v = .none ∨ ∃ d, v = .built d := by
  cases e with
  | setupkvm | pgdir | setPgdir | switchuvm | freevm => cases he
  | _ => exact .rfl

theorem imageNext_of_plain {e : KOp} (he : e.plain = true) (r : e.Ans) (v : Image) :
    e.imageNext r v = v := by
  cases e with
  | setupkvm | pgdir | setPgdir | switchuvm | freevm => cases he
  | _ => rfl

/-- The code has nothing to do with page directories. -/
def Plain {α : Type} (p : KProg α) : Prop := p.Only fun e => e.plain = true

theorem plain_kop {e : KOp} (he : e.plain = true) : Plain (kop e) := Prog.Only.perform he

theorem plain_pure {α : Type} (a : α) : Plain (pure a : KProg α) := Prog.Only.ret a

theorem plain_panic {α : Type} : Plain (kpanic : KProg α) := ⟨rfl, fun r => r.elim⟩

namespace Plain

variable {α β : Type}

theorem bind {p : KProg α} {f : α → KProg β} (hp : Plain p) (hf : ∀ a, Plain (f a)) :
    Plain (p >>= f) :=
  Prog.Only.bind hp hf

theorem op {e : KOp} (he : e.plain = true) {f : e.Ans → KProg β} (hf : ∀ r, Plain (f r)) :
    Plain (kop e >>= f) :=
  (plain_kop he).bind hf

theorem when {c : Prop} [Decidable c] {p : KProg Unit} (hp : Plain p) : Plain (Prog.when c p) :=
  Prog.Only.when hp

theorem ite {c : Prop} [Decidable c] {p q : KProg α} (hp : Plain p) (hq : Plain q) :
    Plain (if c then p else q) := by
  split
  · exact hp
  · exact hq

end Plain

theorem plain_maybe : Plain maybe := .op rfl fun _ => plain_pure _

theorem plain_each {ι : Type} {b : ι → KProg Unit} (hb : ∀ i, Plain (b i)) {is : List ι} :
    Plain (Prog.each b is) :=
  Prog.Only.each hb is

theorem plain_someTimes {p : KProg Unit} (hp : Plain p) : Plain (someTimes p) :=
  .op rfl fun _ => plain_each fun _ => hp

/-! ## Code that has nothing to do with page directories -/

theorem plain_bread : Plain bread :=
  .op rfl fun _ => plain_maybe.bind fun _ => Plain.bind (.when (plain_kop rfl)) fun _ => plain_pure _

theorem plain_bpeek : Plain bpeek := plain_bread.bind fun _ => plain_kop rfl

theorem plain_bmodify : Plain bmodify :=
  plain_bread.bind fun _ => .op rfl fun _ => plain_kop rfl

theorem plain_copyBlock : Plain copyBlock :=
  plain_bread.bind fun _ => plain_bread.bind fun _ => .op rfl fun _ =>
    .op rfl fun _ => plain_kop rfl

theorem plain_writeHead : Plain writeHead :=
  plain_bread.bind fun _ => .op rfl fun _ => plain_kop rfl

theorem plain_endOp : Plain endOp := by
  refine .op rfl fun _ => Plain.when (Plain.bind ?_ fun _ => plain_kop rfl)
  refine plain_maybe.bind fun _ => Plain.when ?_
  exact (plain_someTimes plain_copyBlock).bind fun _ => plain_writeHead.bind fun _ =>
    (plain_someTimes plain_copyBlock).bind fun _ => plain_writeHead

theorem plain_initlog : Plain initlog :=
  plain_bpeek.bind fun _ => plain_bpeek.bind fun _ =>
    (plain_someTimes plain_copyBlock).bind fun _ => plain_writeHead

theorem plain_balloc : Plain balloc := by
  refine plain_bpeek.bind fun _ => (plain_someTimes plain_bpeek).bind fun _ => plain_maybe.bind fun _ => ?_
  exact .ite (plain_bmodify.bind fun _ => plain_bmodify) plain_panic

theorem plain_bfree : Plain bfree := plain_bpeek.bind fun _ => plain_bmodify

theorem plain_bmap : Plain bmap := by
  refine plain_maybe.bind fun _ => .ite (plain_maybe.bind fun _ => plain_balloc.when) ?_
  refine plain_maybe.bind fun _ => plain_balloc.when.bind fun _ => plain_bread.bind fun _ =>
    plain_maybe.bind fun _ => Plain.bind (Plain.when ?_) fun _ => plain_kop rfl
  exact plain_balloc.bind fun _ => plain_kop rfl

theorem plain_itrunc : Plain itrunc := by
  refine (plain_someTimes plain_bfree).bind fun _ => plain_maybe.bind fun _ =>
    Plain.bind (Plain.when ?_) fun _ => plain_bmodify
  exact plain_bread.bind fun _ => (plain_someTimes plain_bfree).bind fun _ => .op rfl fun _ =>
    plain_bfree

theorem plain_ilock (ip : Inum) : Plain (ilock ip) :=
  .op rfl fun _ => plain_maybe.bind fun _ => plain_bpeek.when

theorem plain_readi (ip : Inum) : Plain (readi ip) := by
  refine plain_maybe.bind fun _ => .ite ?_ (plain_someTimes (plain_bmap.bind fun _ => plain_bpeek))
  exact .op rfl fun _ => .op rfl fun _ => plain_ilock ip

theorem plain_writei (ip : Inum) : Plain (writei ip) := by
  refine plain_maybe.bind fun _ => .ite (.op rfl fun _ => plain_ilock ip) ?_
  exact (plain_someTimes (plain_bmap.bind fun _ => plain_bmodify)).bind fun _ =>
    plain_maybe.bind fun _ => plain_bmodify.when

theorem plain_readDir : Plain readDir := plain_someTimes (plain_bmap.bind fun _ => plain_bpeek)

theorem plain_writeDir : Plain writeDir :=
  plain_bmap.bind fun _ => plain_bmodify.bind fun _ => plain_maybe.bind fun _ => plain_bmodify.when

theorem plain_lower (e : FsOp) : Plain (lower e) := by
  cases e with
  | endOp => exact plain_endOp
  | ilock ip => exact plain_ilock ip
  | ifree => exact plain_itrunc.bind fun _ => plain_bmodify
  | itype =>
    refine .op rfl fun n => ?_
    split <;> exact plain_pure _
  | nlink => exact .op rfl fun _ => plain_pure _
  | addLink | initInode => exact plain_bmodify
  | dirFind =>
    refine plain_readDir.bind fun _ => plain_maybe.bind fun _ => .ite ?_ (plain_pure _)
    exact .op rfl fun _ => .op rfl fun _ => plain_pure _
  | dirAdd => exact plain_readDir.bind fun _ => plain_writeDir
  | dirEmpty => exact plain_readDir.bind fun _ => plain_maybe
  | dirClear => exact plain_writeDir
  | ialloc =>
    exact plain_bpeek.bind fun _ => (plain_someTimes plain_bpeek).bind fun _ =>
      plain_bmodify.bind fun _ => plain_kop rfl
  | filealloc =>
    exact plain_maybe.bind fun _ => .ite (.op rfl fun _ => plain_pure _) (plain_pure _)
  | fileDrop =>
    refine .op rfl fun n => ?_
    split
    · exact plain_pure _
    · exact plain_pure _
    · exact .op rfl fun _ => plain_maybe.bind fun _ => plain_pure _
    · exact .op rfl fun _ => plain_pure _
  | pipeclose => exact .op rfl fun _ => plain_maybe.bind fun _ => .when (plain_kop rfl)
  | panic => exact plain_panic
  | idup | filedup | fileSet => exact plain_pure _
  | beginOp | cwd | setCwd | iget | iunlock | iputTest | iputEnd | ofile | setOfile =>
    exact plain_kop rfl

theorem plain_fsCall {α : Type} (p : FsProg α) : Plain (fsCall p) := Prog.Only.interp plain_lower p

theorem plain_fileread : Plain fileread := by
  refine .op rfl fun n => ?_
  split
  · exact plain_pure _
  · exact .op rfl fun _ => .op rfl fun _ => .when (plain_kop rfl)
  · exact .op rfl fun ip => (plain_ilock ip).bind fun _ => (plain_readi ip).bind fun _ => plain_kop rfl
  · exact plain_panic

theorem plain_filewrite : Plain filewrite := by
  refine .op rfl fun n => ?_
  split
  · exact plain_pure _
  · refine .op rfl fun _ => (plain_someTimes ?_).bind fun _ => plain_kop rfl
    exact .op rfl fun _ => .op rfl fun _ => plain_pure _
  · refine .op rfl fun ip => plain_someTimes ?_
    exact .op rfl fun _ => (plain_ilock ip).bind fun _ => (plain_writei ip).bind fun _ =>
      .op rfl fun _ => plain_endOp
  · exact plain_panic

theorem plain_filestat : Plain filestat :=
  plain_maybe.bind fun _ => Plain.when
    (.op rfl fun ip => (plain_ilock ip).bind fun _ => plain_kop rfl)

theorem plain_onFile (n : ℤ) {call : KProg Unit} (h : Plain call) : Plain (onFile n call) := by
  refine (plain_fsCall _).bind fun r => ?_
  cases r with
  | none => exact plain_pure _
  | some _ => exact h

theorem plain_sysPipe : Plain sysPipe := by
  refine .op rfl fun _ => .ite ?_ (plain_pure _)
  refine .op rfl fun rf => .op rfl fun wf => (plain_fsCall _).bind fun r => ?_
  cases r with
  | none => exact (plain_fsCall _).bind fun _ => plain_fsCall _
  | some fd0 =>
    refine (plain_fsCall _).bind fun r => ?_
    cases r with
    | none => exact .op rfl fun _ => (plain_fsCall _).bind fun _ => plain_fsCall _
    | some _ => exact plain_pure _

theorem plain_fork : Plain fork := by
  refine Plain.bind ?_ fun r => ?_
  · refine .op rfl fun r => ?_
    cases r with
    | none => exact plain_pure _
    | some p => exact .op rfl fun _ => .ite (.op rfl fun _ => plain_pure _) (plain_pure _)
  · cases r with
    | none => exact plain_pure _
    | some np =>
      refine .op rfl fun _ => .ite ?_ (.op rfl fun _ => plain_pure _)
      exact .op rfl fun _ => Plain.bind (plain_each fun _ => plain_kop rfl) fun _ =>
        .op rfl fun _ => plain_kop rfl

theorem plain_exit : Plain exit :=
  .op rfl fun _ => (plain_fsCall _).bind fun _ => .op rfl fun e => e.elim

theorem plain_kthreadCreate (size : ℕ) : Plain (kthreadCreate size) := by
  refine .op rfl fun r => ?_
  cases r with
  | none => exact plain_pure _
  | some t => exact .op rfl fun _ => plain_kop rfl

theorem plain_forkret : Plain forkret := .op rfl fun _ => plain_initlog.when

theorem plain_exitIfKilled : Plain exitIfKilled := .op rfl fun _ => plain_exit.when

/-! ## `exec` and `growproc` -/

theorem Plain.then {α β : Type} {p : KProg α} {f : α → KProg β} {Q : β → Image → Prop} {v : Image}
    (hp : Plain p) (hv : v = .none ∨ ∃ d, v = .built d) (hf : ∀ a, (f a).Safe imageRules Q v) :
    (p >>= f).Safe imageRules Q v := by
  rw [Prog.safe_bind]
  refine Prog.Safe.mono (Prog.Only.safe hp (fun _ he => (imagePre_of_plain he).mpr hv)
    fun _ r he => imageNext_of_plain he r v) ?_
  rintro a _ rfl
  exact hf a

theorem Plain.image {p : KProg Unit} (hp : Plain p) :
    p.Safe imageRules (fun _ v => v = .none) .none :=
  Prog.Only.safe hp (fun _ he => (imagePre_of_plain he).mpr (.inl rfl))
    fun _ r he => imageNext_of_plain he r .none

theorem image_op {β : Type} {e : KOp} {f : e.Ans → KProg β} {Q : β → Image → Prop} {v : Image}
    (hpre : e.imagePre v) (hf : ∀ r, (f r).Safe imageRules Q (e.imageNext r v)) :
    (kop e >>= f).Safe imageRules Q v :=
  ⟨hpre, hf⟩

theorem plain_bad (ip : Inum) : Plain (fsCall (Fs.iunlockput ip) >>= fun _ => endOp) :=
  (plain_fsCall _).bind fun _ => plain_endOp

theorem image_execBad_none (ip : Inum) :
    (execBad none ip).Safe imageRules (fun _ v => v = .none) .none :=
  (plain_bad ip).image

theorem image_execBad_some (d : ℕ) (ip : Inum) :
    (execBad (some d) ip).Safe imageRules (fun _ v => v = .none) (.built d) :=
  image_op (e := .freevm d) (.inl rfl) fun _ => (plain_bad ip).image

theorem plain_execLoad (d : ℕ) (ip : Inum) (n : ℕ) : Plain (execLoad d ip n) := by
  induction n with
  | zero => exact plain_pure _
  | succ n ih =>
    refine (plain_readi ip).bind fun _ => plain_maybe.bind fun _ => .ite ?_ ih
    refine .op rfl fun _ => .ite ?_ (plain_pure _)
    exact (plain_someTimes (plain_readi ip)).bind fun _ => plain_maybe.bind fun _ =>
      .ite ih (plain_pure _)

theorem image_execCommit (d : ℕ) :
    (execCommit d).Safe imageRules (fun _ v => v = .none) (.built d) := by
  refine Plain.then (plain_kop rfl) (.inr ⟨d, rfl⟩) fun ok => ?_
  rw [Prog.safe_ite]
  split
  · refine plain_maybe.then (.inr ⟨d, rfl⟩) fun good => ?_
    rw [Prog.safe_ite]
    split
    · refine image_op (e := .pgdir) (.inr ⟨d, rfl⟩) fun old => ?_
      refine image_op (e := .setPgdir d) ⟨old, rfl⟩ fun _ => ?_
      exact image_op (e := .switchuvm) (.inr ⟨d, old, rfl⟩) fun _ => ⟨.inr ⟨d, rfl⟩, fun _ => rfl⟩
    · exact ⟨.inl rfl, fun _ => rfl⟩
  · exact ⟨.inl rfl, fun _ => rfl⟩

theorem image_exec (path : List UInt8) :
    (exec path).Safe imageRules (fun _ v => v = .none) .none := by
  refine Plain.then (plain_kop rfl) (.inl rfl) fun _ => (plain_fsCall _).then (.inl rfl) fun r => ?_
  cases r with
  | none => exact plain_endOp.image
  | some ip =>
    refine (plain_ilock ip).then (.inl rfl) fun _ => (plain_readi ip).then (.inl rfl) fun _ =>
      plain_maybe.then (.inl rfl) fun elf => ?_
    rw [Prog.safe_ite]
    split
    · refine image_op (e := .setupkvm) rfl fun r => ?_
      cases r with
      | none => exact image_execBad_none ip
      | some d =>
        have hd : Image.built d = .none ∨ ∃ d', Image.built d = .built d' := .inr ⟨d, rfl⟩
        refine Plain.then (plain_kop rfl) hd fun n => (plain_execLoad d ip n).then hd fun ok => ?_
        rw [Prog.safe_ite]
        split
        · exact (plain_fsCall _).then hd fun _ => plain_endOp.then hd fun _ => image_execCommit d
        · exact image_execBad_some d ip
    · exact image_execBad_none ip

theorem image_growproc : growproc.Safe imageRules (fun _ v => v = .none) .none := by
  refine image_op (e := .pgdir) (.inl rfl) fun d => plain_maybe.then (.inl rfl) fun grow => ?_
  rw [Prog.safe_ite]
  split
  · refine Plain.then (plain_kop rfl) (.inl rfl) fun ok => ?_
    exact Prog.safe_when.mpr ⟨fun _ => ⟨.inl rfl, fun _ => rfl⟩, fun _ => rfl⟩
  · exact Plain.then (plain_kop rfl) (.inl rfl) fun _ => ⟨.inl rfl, fun _ => rfl⟩

theorem image_syscall (call : Sys) :
    (syscall call).Safe imageRules (fun _ v => v = .none) .none := by
  cases call with
  | exec path =>
    cases path with
    | none => exact (plain_pure _).image
    | some path => exact image_exec path
  | sbrk => exact image_growproc
  | fork => exact (plain_fork.bind fun _ => plain_pure _).image
  | exit => exact plain_exit.image
  | pipe => exact plain_sysPipe.image
  | read fd => exact (plain_onFile fd plain_fileread).image
  | write fd => exact (plain_onFile fd plain_filewrite).image
  | fstat fd => exact (plain_onFile fd plain_filestat).image
  | kthreadCreate size => exact ((plain_kthreadCreate size).bind fun _ => plain_pure _).image
  | kthreadExit => exact Plain.image (.op rfl fun _ => plain_exit)
  | chdir | dup | «open» | mknod | unlink | link | mkdir | close =>
    exact ((plain_fsCall _).bind fun _ => plain_pure _).image
  | wait | kill | sleep | kthreadJoin => exact Plain.image (.op rfl fun _ => plain_pure _)
  | getpid | uptime | kthreadId => exact (plain_pure _).image

theorem image_trap (t : Trap) : (trap t).Safe imageRules (fun _ v => v = .none) .none := by
  cases t with
  | syscall call =>
    refine plain_exitIfKilled.then (.inl rfl) fun _ => Plain.then (plain_kop rfl) (.inl rfl) fun _ => ?_
    rw [Prog.safe_bind]
    refine (image_syscall call).mono ?_
    rintro _ _ rfl
    exact plain_exitIfKilled.image
  | irq => exact plain_exitIfKilled.image
  | fault => exact Plain.image (.op rfl fun _ => plain_exitIfKilled)

end Xv6.Proc
