import Xv6.Proc.Discipline

/-!
# The calls keep to the discipline

The file-system calls are written over operations of their own, so they are checked
against rules of their own: `fsRules` has the part of the kernel's rules that they can
touch.  `safe_lower` says that what the kernel does for such an operation keeps to the
kernel's rules and moves the knowledge in the same way; `Prog.Safe.interp` then carries
every call over.

* `safe_create`, `safe_exitFiles` --- the two functions that do not leave things as they
  found them: `create` returns a locked inode, `exit` closes everything.
-/

namespace Xv6.Proc

open Fs
open Prog (safe_bind safe_vis safe_ret safe_pure safe_ite safe_when)

/-! ## The operations of the file-system calls -/

/-- What it takes to perform an operation of a file-system call. -/
@[simp] def fsPre : FsOp → Ctx → Prop
  | .endOp, g => 0 < g.ops
  | .iunlock ip, g => ip ∈ g.inodes
  | .iputEnd ip freed, g => freed = true → ip ∈ g.inodes
  | .setOfile _ (some _), g => g.closing = none
  | .setCwd (some _), g => g.closing = none
  | _, _ => True

/-- What is known after an operation of a file-system call. -/
@[simp] def fsNext : (e : FsOp) → e.Ans → Ctx → Ctx
  | .beginOp, _, g => g.opBegun
  | .endOp, _, g => g.opEnded
  | .ilock ip, _, g => g.lock ip
  | .iunlock ip, _, g => g.unlock ip
  | .iputTest ip, r, g => if r then g.lock ip else g
  | .iputEnd ip freed, _, g => if freed then g.unlock ip else g
  | .ofile fd, none, g => g.seeFd fd
  | .setOfile fd none, _, g => g.seeFd fd
  | .setCwd none, _, g => g.seeCwd
  | _, _, g => g

/-- The discipline of the file-system calls. -/
def fsRules : Rules FsOp FsOp.Ans Ctx := ⟨fsPre, fsNext⟩

@[simp] theorem fsRules_pre (e : FsOp) : fsRules.pre e = fsPre e := rfl

@[simp] theorem fsRules_next (e : FsOp) (r : e.Ans) (g : Ctx) :
    fsRules.next e r g = fsNext e r g := rfl

/-- **What the kernel does for an operation keeps to the discipline**, and leaves the
knowledge that the operation leaves. -/
theorem safe_lower (e : FsOp) (g : Ctx) (h : fsPre e g) :
    (lower e).Safe kernelRules (fun r g' => g' = fsNext e r g) g := by
  cases e with
  | endOp => exact safe_endOp h rfl
  | ilock ip => exact safe_ilock rfl
  | ifree ip =>
    simp only [lower, safe_bind]
    exact (keeps_itrunc g).then fun _ => keeps_iupdate g
  | addLink | initInode => exact keeps_iupdate g
  | dirFind | dirEmpty =>
    simp only [lower, safe_bind]
    refine (keeps_readDir g).then fun _ => ?_
    simp
  | dirAdd dp name inum =>
    simp only [lower, safe_bind]
    exact (keeps_readDir g).then fun _ => keeps_writeDir g
  | dirClear dp off => exact keeps_writeDir g
  | ialloc ty =>
    simp only [lower, safe_bind]
    refine (keeps_bpeek g).then fun _ => (keeps_someTimes (keeps_bpeek g)).then fun _ => ?_
    exact (keeps_bmodify g).then fun _ => by simp
  | itype ip =>
    simp only [lower, someType, safe_bind, kop_eq_vis, safe_vis, safe_ret]
    refine ⟨trivial, fun n => ?_⟩
    split <;> exact rfl
  | fileDrop f =>
    simp only [lower, closedFile, safe_bind, kop_eq_vis, safe_vis, safe_ret]
    refine ⟨trivial, fun n => ?_⟩
    split <;> simp
  | pipeclose p writable =>
    simp only [lower, pipeclose, safe_bind, safe_maybe, kop_eq_vis, safe_vis, safe_ret]
    exact ⟨trivial, fun _ n => Keeps.when ⟨trivial, fun _ => rfl⟩⟩
  | setOfile fd f => cases f <;> exact ⟨h, fun _ => rfl⟩
  | setCwd ip => cases ip <;> exact ⟨h, fun _ => rfl⟩
  | ofile fd => exact ⟨trivial, fun r => by cases r <;> rfl⟩
  | filealloc =>
    simp only [lower, safe_bind, safe_maybe]
    intro n
    split <;> simp
  | nlink ip => simp [lower]
  | panic msg => exact safe_kpanic
  | beginOp | cwd | iputTest | iget => exact ⟨trivial, fun _ => rfl⟩
  | iunlock | iputEnd => exact ⟨h, fun _ => rfl⟩
  | idup ip | filedup f | fileSet f ip omode => exact rfl

theorem safe_fsCall {α : Type} {p : FsProg α} {Q : α → Ctx → Prop} {g : Ctx}
    (h : p.Safe fsRules Q g) : (fsCall p).Safe kernelRules Q g :=
  Prog.Safe.interp safe_lower h

/-! ## Inodes, directories and paths -/

/-- The call keeps to the discipline, and knows afterwards what it knew before. -/
def FsKeeps {α : Type} (p : FsProg α) (g : Ctx) : Prop := p.Safe fsRules (fun _ g' => g' = g) g

theorem FsKeeps.then {α : Type} {p : FsProg α} {g : Ctx} {Q : α → Ctx → Prop}
    (h : FsKeeps p g) (hQ : ∀ a, Q a g) : p.Safe fsRules Q g :=
  Prog.Safe.mono h fun a _ hg => hg ▸ hQ a

@[simp] theorem op_eq_vis (e : FsOp) : op e = Prog.vis e Prog.ret := rfl

@[simp] theorem safe_panic {α : Type} {msg : Fs.FsPanic} {Q : α → Ctx → Prop} {g : Ctx} :
    (panic msg : FsProg α).Safe fsRules Q g :=
  ⟨trivial, fun r => r.elim⟩

theorem fsKeeps_iput (ip : Inum) (g : Ctx) : FsKeeps (iput ip) g := by
  simp only [FsKeeps, iput, safe_bind]
  refine ⟨trivial, fun last => ?_⟩
  cases last with
  | true => exact ⟨trivial, fun _ => ⟨fun _ => g.mem_inodes_lock ip, fun _ => g.unlock_lock ip⟩⟩
  | false => exact ⟨fun h => absurd h Bool.false_ne_true, fun _ => rfl⟩

theorem safe_iunlockput {ip : Inum} {g : Ctx} {Q : Unit → Ctx → Prop} (hQ : Q () g) :
    (iunlockput ip).Safe fsRules Q (g.lock ip) := by
  simp only [iunlockput, safe_bind]
  refine ⟨g.mem_inodes_lock ip, fun _ => ?_⟩
  rw [safe_ret, fsRules_next, fsNext, Ctx.unlock_lock]
  exact (fsKeeps_iput ip g).then fun _ => hQ

theorem fsKeeps_ialloc (ty : IType) (g : Ctx) : FsKeeps (ialloc ty) g :=
  ⟨trivial, fun _ => ⟨trivial, fun _ => rfl⟩⟩

theorem fsKeeps_dirlookup (dp : Inum) (name : Name) (g : Ctx) :
    FsKeeps (dirlookup dp name) g := by
  simp only [FsKeeps, dirlookup, safe_bind]
  refine ⟨trivial, fun ty => ?_⟩
  rw [safe_ret, safe_ite]
  split
  · exact safe_panic
  · refine ⟨trivial, fun r => ?_⟩
    rcases r with _ | ⟨inum, off⟩
    · exact rfl
    · exact ⟨trivial, fun _ => rfl⟩

theorem fsKeeps_dirlink (dp : Inum) (name : Name) (inum : Inum) (g : Ctx) :
    FsKeeps (dirlink dp name inum) g := by
  simp only [FsKeeps, dirlink, safe_bind]
  refine (fsKeeps_dirlookup dp name g).then fun r => ?_
  rcases r with _ | ⟨ip, off⟩
  · exact ⟨trivial, fun _ => rfl⟩
  · rw [safe_bind]
    exact (fsKeeps_iput ip g).then fun _ => rfl

theorem fsKeeps_namexFrom (parent : Bool) (g : Ctx) :
    ∀ (names : List Name) (ip : Inum) (last : Name), FsKeeps (namexFrom parent ip last names) g
  | [], ip, last => by
    rw [FsKeeps, namexFrom]
    split
    · rw [safe_bind]
      exact (fsKeeps_iput ip g).then fun _ => rfl
    · exact rfl
  | name :: rest, ip, last => by
    simp only [FsKeeps, namexFrom, safe_bind]
    refine ⟨trivial, fun _ => ⟨trivial, fun ty => ?_⟩⟩
    simp only [safe_ret, fsRules_next, fsNext]
    split
    · rw [safe_bind]
      exact safe_iunlockput rfl
    split
    · exact ⟨g.mem_inodes_lock ip, fun _ => g.unlock_lock ip⟩
    · rw [safe_bind]
      refine (fsKeeps_dirlookup ip name (g.lock ip)).then fun r => ?_
      rcases r with _ | ⟨next, off⟩
      · rw [safe_bind]
        exact safe_iunlockput rfl
      · rw [safe_bind]
        exact safe_iunlockput (fsKeeps_namexFrom parent g rest next name)

theorem fsKeeps_namex (path : List UInt8) (parent : Bool) (g : Ctx) :
    FsKeeps (namex path parent) g := by
  rw [FsKeeps, namex, safe_ite]
  split
  · exact ⟨trivial, fun _ => fsKeeps_namexFrom parent g _ _ _⟩
  · refine ⟨trivial, fun r => ?_⟩
    rcases r with _ | ip
    · exact safe_panic
    · exact ⟨trivial, fun _ => fsKeeps_namexFrom parent g _ _ _⟩

theorem fsKeeps_namei (path : List UInt8) (g : Ctx) : FsKeeps (namei path) g := by
  rw [FsKeeps, namei, safe_bind]
  refine (fsKeeps_namex path false g).then fun r => ?_
  rcases r with _ | ⟨ip, name⟩
  · exact rfl
  · exact rfl

theorem fsKeeps_nameiparent (path : List UInt8) (g : Ctx) : FsKeeps (nameiparent path) g :=
  fsKeeps_namex path true g

/-! ## Files -/

section Steps

variable {α : Type} {p : FsProg α} {g : Ctx} {Q : α → Ctx → Prop}

theorem safe_op {e : FsOp} {f : e.Ans → FsProg α} (hpre : fsPre e g)
    (h : ∀ r, (f r).Safe fsRules Q (fsNext e r g)) : (op e >>= f).Safe fsRules Q g :=
  ⟨hpre, h⟩

theorem safe_begin (h : p.Safe fsRules Q g.opBegun) : (do op .beginOp; p).Safe fsRules Q g :=
  ⟨trivial, fun _ => h⟩

theorem safe_end (h : p.Safe fsRules Q g) : (do op .endOp; p).Safe fsRules Q g.opBegun :=
  ⟨g.opBegun_ops_pos, fun _ => h⟩

theorem safe_lock {ip : Inum} (h : p.Safe fsRules Q (g.lock ip)) :
    (do op (.ilock ip); p).Safe fsRules Q g :=
  ⟨trivial, fun _ => h⟩

theorem safe_unlock {ip : Inum} (h : p.Safe fsRules Q g) :
    (do op (.iunlock ip); p).Safe fsRules Q (g.lock ip) := by
  refine ⟨g.mem_inodes_lock ip, fun _ => ?_⟩
  rw [fsRules_next, fsNext, Ctx.unlock_lock]
  exact h

theorem safe_unlockput {ip : Inum} (h : p.Safe fsRules Q g) :
    (do iunlockput ip; p).Safe fsRules Q (g.lock ip) := by
  rw [safe_bind]
  exact safe_iunlockput h

theorem safe_unlockput_under (ip jp : Inum) (h : p.Safe fsRules Q (g.lock jp)) :
    (do iunlockput ip; p).Safe fsRules Q ((g.lock ip).lock jp) := by
  rw [Ctx.lock_comm]
  exact safe_unlockput h

theorem FsKeeps.bind {β : Type} {q : FsProg β} {f : β → FsProg α} (h : FsKeeps q g)
    (hf : ∀ b, (f b).Safe fsRules Q g) : (q >>= f).Safe fsRules Q g := by
  rw [safe_bind]
  exact h.then hf

end Steps

theorem fsKeeps_fileclose (f : FileId) (g : Ctx) : FsKeeps (fileclose f) g := by
  simp only [FsKeeps, fileclose, safe_bind]
  refine ⟨trivial, fun r => ?_⟩
  rcases r with _ | (_ | ⟨p, w⟩ | ip)
  · exact rfl
  · exact rfl
  · exact ⟨trivial, fun _ => rfl⟩
  · exact safe_begin ((fsKeeps_iput ip _).bind fun _ => ⟨g.opBegun_ops_pos, fun _ => rfl⟩)

theorem fsKeeps_ofile {g : Ctx} (h : g.closing = none) (fd : Fin nofile) :
    FsKeeps (op (.ofile fd)) g := by
  refine ⟨trivial, fun r => ?_⟩
  rcases r with _ | f
  · exact Ctx.seeFd_eq h fd
  · exact rfl

theorem fsKeeps_fdallocFrom (f : FileId) {g : Ctx} (h : g.closing = none) :
    ∀ fds : List (Fin nofile), FsKeeps (fdallocFrom f fds) g
  | [] => rfl
  | fd :: fds => by
    rw [FsKeeps, fdallocFrom, safe_bind]
    refine (fsKeeps_ofile h fd).then fun r => ?_
    rcases r with _ | f'
    · exact ⟨h, fun _ => rfl⟩
    · exact fsKeeps_fdallocFrom f h fds

theorem fsKeeps_fdalloc (f : FileId) {g : Ctx} (h : g.closing = none) : FsKeeps (fdalloc f) g :=
  fsKeeps_fdallocFrom f h _

theorem fsKeeps_argfd (n : ℤ) {g : Ctx} (h : g.closing = none) : FsKeeps (argfd n) g := by
  unfold FsKeeps argfd
  split
  · simp only [safe_bind]
    refine (fsKeeps_ofile h _).then fun r => ?_
    rcases r with _ | f
    · exact rfl
    · exact rfl
  · exact rfl

/-! ## System calls on files -/

theorem fsKeeps_sysDup (arg : Option ℤ) {g : Ctx} (h : g.closing = none) :
    FsKeeps (sysDup arg) g := by
  rcases arg with _ | n
  · exact rfl
  · refine (fsKeeps_argfd n h).bind fun r => ?_
    rcases r with _ | ⟨fd, f⟩
    · exact rfl
    · refine (fsKeeps_fdalloc f h).bind fun r => ?_
      rcases r with _ | fd'
      · exact rfl
      · exact ⟨trivial, fun _ => rfl⟩

theorem fsKeeps_sysClose (arg : Option ℤ) {g : Ctx} (h : g.closing = none) :
    FsKeeps (sysClose arg) g := by
  rcases arg with _ | n
  · exact rfl
  · refine (fsKeeps_argfd n h).bind fun r => ?_
    rcases r with _ | ⟨fd, f⟩
    · exact rfl
    · refine safe_op trivial fun _ => ?_
      rw [fsNext, Ctx.seeFd_eq h]
      exact (fsKeeps_fileclose f g).bind fun _ => rfl

theorem safe_linkBad (ip : Inum) (g : Ctx) :
    (linkBad ip).Safe fsRules (fun _ g' => g' = g) g.opBegun :=
  safe_lock ⟨trivial, fun _ => safe_unlockput (safe_end rfl)⟩

theorem safe_linkInto (ip : Inum) (new : List UInt8) (g : Ctx) :
    (linkInto ip new).Safe fsRules (fun _ g' => g' = g) g.opBegun := by
  refine (fsKeeps_nameiparent new _).bind fun r => ?_
  rcases r with _ | ⟨dp, name⟩
  · exact safe_linkBad ip g
  · refine safe_lock ((fsKeeps_dirlink dp name ip _).bind fun r => ?_)
    split
    · exact safe_unlockput ((fsKeeps_iput ip _).bind fun _ => safe_end rfl)
    · exact safe_unlockput (safe_linkBad ip g)

theorem fsKeeps_sysLink (args : Option (List UInt8 × List UInt8)) (g : Ctx) :
    FsKeeps (sysLink args) g := by
  rcases args with _ | ⟨old, new⟩
  · exact rfl
  · refine safe_begin ((fsKeeps_namei old _).bind fun r => ?_)
    rcases r with _ | ip
    · exact safe_end rfl
    · refine safe_lock (safe_op trivial fun ty => ?_)
      rw [safe_ite]
      split
      · exact safe_unlockput (safe_end rfl)
      · exact ⟨trivial, fun _ => safe_unlock (safe_linkInto ip new g)⟩

theorem safe_unlinkBad (dp : Inum) (g : Ctx) :
    (unlinkBad dp).Safe fsRules (fun _ g' => g' = g) (g.opBegun.lock dp) :=
  safe_unlockput (safe_end rfl)

theorem safe_unlinkEntry (dp ip : Inum) (off : ℕ) (isdir : Bool) (g : Ctx) :
    (unlinkEntry dp ip off isdir).Safe fsRules (fun _ g' => g' = g)
      ((g.opBegun.lock dp).lock ip) := by
  refine safe_op trivial fun _ => ?_
  rw [safe_bind, safe_when]
  have hrest := safe_unlockput_under (g := g.opBegun)
    (p := do op (.addLink ip (-1)); iunlockput ip; op .endOp; pure (0 : ℤ))
    (Q := fun _ g' => g' = g) dp ip ⟨trivial, fun _ => safe_unlockput (safe_end rfl)⟩
  exact ⟨fun _ => ⟨trivial, fun _ => hrest⟩, fun _ => hrest⟩

theorem safe_unlinkFrom (dp : Inum) (name : Name) (g : Ctx) :
    (unlinkFrom dp name).Safe fsRules (fun _ g' => g' = g) (g.opBegun.lock dp) := by
  unfold unlinkFrom
  split
  · exact safe_unlinkBad dp g
  · refine (fsKeeps_dirlookup dp name _).bind fun r => ?_
    rcases r with _ | ⟨ip, off⟩
    · exact safe_unlinkBad dp g
    · refine safe_lock (safe_op trivial fun n => ?_)
      rw [safe_ite]
      split
      · exact safe_panic
      · refine safe_op trivial fun ty => ?_
        rw [safe_ite]
        split
        · refine safe_op trivial fun empty => ?_
          rw [safe_ite]
          split
          · exact safe_unlinkEntry dp ip off true g
          · exact safe_unlockput (safe_unlinkBad dp g)
        · exact safe_unlinkEntry dp ip off false g

theorem fsKeeps_sysUnlink (arg : Option (List UInt8)) (g : Ctx) : FsKeeps (sysUnlink arg) g := by
  rcases arg with _ | path
  · exact rfl
  · refine safe_begin ((fsKeeps_nameiparent path _).bind fun r => ?_)
    rcases r with _ | ⟨dp, name⟩
    · exact safe_end rfl
    · exact safe_lock (safe_unlinkFrom dp name g)

theorem fsKeeps_createDots (dp ip : Inum) (g : Ctx) : FsKeeps (createDots dp ip) g := by
  refine ⟨trivial, fun _ => (fsKeeps_dirlink ip dot ip g).bind fun r => ?_⟩
  split
  · refine (fsKeeps_dirlink ip dotdot dp g).bind fun r => ?_
    split
    · exact rfl
    · exact safe_panic
  · exact safe_panic

/-- What `create` leaves: nothing, or a locked inode. -/
def Created (g : Ctx) (r : Option Inum) (g' : Ctx) : Prop := g' = r.elim g g.lock

theorem safe_createEntries (dp : Inum) (name : Name) (ip : Inum) (ty : IType) (g : Ctx) :
    (createEntries dp name ip ty).Safe fsRules (Created g) ((g.lock dp).lock ip) := by
  unfold createEntries
  rw [safe_bind, safe_when]
  have hrest : (do
      if ← dirlink dp name ip then do
        iunlockput dp
        pure (some ip)
      else panic .createDirlink : FsProg (Option Inum)).Safe fsRules (Created g)
        ((g.lock dp).lock ip) := by
    refine (fsKeeps_dirlink dp name ip _).bind fun r => ?_
    split
    · exact safe_unlockput_under _ _ rfl
    · exact safe_panic
  exact ⟨fun _ => (fsKeeps_createDots dp ip _).then fun _ => hrest, fun _ => hrest⟩

theorem safe_create (path : List UInt8) (ty : IType) (major minor : ℤ) (g : Ctx) :
    (create path ty major minor).Safe fsRules (Created g) g := by
  refine (fsKeeps_nameiparent path g).bind fun r => ?_
  rcases r with _ | ⟨dp, name⟩
  · exact rfl
  · refine safe_lock ((fsKeeps_dirlookup dp name _).bind fun r => ?_)
    rcases r with _ | ⟨ip, off⟩
    · refine (fsKeeps_ialloc ty _).bind fun ip => safe_lock ⟨trivial, fun _ => ?_⟩
      exact safe_createEntries dp name ip ty g
    · refine safe_unlockput (safe_lock (safe_op trivial fun ty' => ?_))
      rw [safe_ite]
      split
      · exact rfl
      · exact safe_unlockput rfl

theorem safe_openFile (ip : Inum) (omode : UInt32) {g : Ctx} (h : g.closing = none) :
    (openFile ip omode).Safe fsRules (fun _ g' => g' = g) (g.opBegun.lock ip) := by
  refine safe_op trivial fun r => ?_
  rcases r with _ | f
  · exact safe_unlockput (safe_end rfl)
  · refine (fsKeeps_fdalloc f (by simpa using h)).bind fun r => ?_
    rcases r with _ | fd
    · exact (fsKeeps_fileclose f _).bind fun _ => safe_unlockput (safe_end rfl)
    · exact safe_unlock (safe_end ⟨trivial, fun _ => rfl⟩)

theorem fsKeeps_sysOpen (args : Option (List UInt8 × UInt32)) {g : Ctx} (h : g.closing = none) :
    FsKeeps (sysOpen args) g := by
  rcases args with _ | ⟨path, omode⟩
  · exact rfl
  · refine safe_begin ?_
    split
    · rw [safe_bind]
      refine (safe_create path .file 0 0 g.opBegun).mono ?_
      rintro (_ | ip) g' rfl
      · exact safe_end rfl
      · exact safe_openFile ip omode h
    · refine (fsKeeps_namei path _).bind fun r => ?_
      rcases r with _ | ip
      · exact safe_end rfl
      · refine safe_lock (safe_op trivial fun ty => ?_)
        rw [safe_ite]
        split
        · exact safe_unlockput (safe_end rfl)
        · exact safe_openFile ip omode h

theorem fsKeeps_makeNode (arg : Option (List UInt8)) (ty : IType) (major minor : ℤ) (g : Ctx) :
    FsKeeps (makeNode arg ty major minor) g := by
  refine safe_begin ?_
  rcases arg with _ | path
  · exact safe_end rfl
  · dsimp only
    rw [safe_bind]
    refine (safe_create path ty major minor g.opBegun).mono ?_
    rintro (_ | ip) g' rfl
    · exact safe_end rfl
    · exact safe_unlockput (safe_end rfl)

theorem fsKeeps_sysChdir (arg : Option (List UInt8)) {g : Ctx} (h : g.closing = none) :
    FsKeeps (sysChdir arg) g := by
  refine safe_begin ?_
  rcases arg with _ | path
  · exact safe_end rfl
  · refine (fsKeeps_namei path _).bind fun r => ?_
    rcases r with _ | ip
    · exact safe_end rfl
    · refine safe_lock (safe_op trivial fun ty => ?_)
      rw [safe_ite]
      split
      · exact safe_unlockput (safe_end rfl)
      · refine safe_unlock (safe_op trivial fun r => ?_)
        rcases r with _ | old
        · exact safe_panic
        · exact (fsKeeps_iput old _).bind fun _ => safe_end ⟨h, fun _ => rfl⟩

/-! ## `exit` -/

theorem safe_exitClose (fd : Fin nofile) {g : Ctx} {Q : Unit → Ctx → Prop} (hQ : Q () (g.seeFd fd)) :
    (exitClose fd).Safe fsRules Q g := by
  refine safe_op trivial fun r => ?_
  rcases r with _ | f
  · exact hQ
  · exact (fsKeeps_fileclose f g).bind fun _ => ⟨trivial, fun _ => hQ⟩

theorem safe_exitFiles {g : Ctx} (h : g.closing = some ([], false)) {Q : Unit → Ctx → Prop}
    (hQ : ∀ fds, (∀ fd, fd ∈ fds) → Q () { g with closing := some (fds, true) }) :
    exitFiles.Safe fsRules Q g := by
  unfold exitFiles
  rw [safe_bind]
  -- the descriptors still to come are all that has not been seen closed
  have hloop := Prog.Safe.each (𝓡 := fsRules) (b := exitClose)
    (I := fun rest g' => ∃ fds, g' = { g with closing := some (fds, false) } ∧
      ∀ fd, fd ∈ fds ∨ fd ∈ rest) ?_ (List.finRange nofile) (g := g) ?_
  · refine hloop.mono ?_
    rintro - g' ⟨fds, rfl, hfds⟩
    refine safe_begin (safe_op trivial fun r => ?_)
    rcases r with _ | ip
    · exact safe_panic
    · refine (fsKeeps_iput ip _).bind fun _ => safe_end ⟨trivial, fun _ => ?_⟩
      exact hQ fds fun fd => (hfds fd).resolve_right (List.not_mem_nil)
  · rintro fd rest g' ⟨fds, rfl, hfds⟩
    refine safe_exitClose fd ⟨fd :: fds, rfl, fun fd' => ?_⟩
    rcases hfds fd' with hin | hin
    · exact Or.inl (List.mem_cons_of_mem _ hin)
    · rcases List.mem_cons.mp hin with rfl | hin
      · exact Or.inl (List.mem_cons_self ..)
      · exact Or.inr hin
  · refine ⟨[], ?_, fun fd => Or.inr (List.mem_finRange fd)⟩
    rw [← h]

section KSteps

variable {α β : Type} {g : Ctx} {Q : α → Ctx → Prop}

theorem safe_kop {e : KOp} {f : e.Ans → KProg α} (hpre : e.pre g)
    (h : ∀ r, (f r).Safe kernelRules Q (e.next r g)) : (kop e >>= f).Safe kernelRules Q g :=
  ⟨hpre, h⟩

theorem Keeps.bind {q : KProg β} {f : β → KProg α} (h : Keeps q g)
    (hf : ∀ b, (f b).Safe kernelRules Q g) : (q >>= f).Safe kernelRules Q g := by
  rw [safe_bind]
  exact h.then hf

theorem keeps_maybe (g : Ctx) : Keeps maybe g := safe_maybe.mpr fun _ => rfl

theorem keeps_fsCall {p : FsProg α} (h : FsKeeps p g) : Keeps (fsCall p) g := safe_fsCall h

end KSteps

theorem safe_exit {g : Ctx} (h : g.Idle) {Q : Unit → Ctx → Prop} : exit.Safe kernelRules Q g := by
  refine safe_kop h fun _ => ?_
  rw [safe_bind]
  refine safe_fsCall (safe_exitFiles rfl fun fds hfds => ?_)
  exact ⟨⟨⟨h.np, h.nt, h.bufs, h.inodes, h.ops⟩, fds, rfl, hfds⟩, fun e => e.elim⟩

theorem keeps_exitIfKilled : Keeps exitIfKilled Ctx.start :=
  safe_kop trivial fun _ => safe_when.mpr ⟨fun _ => safe_exit Ctx.start_idle, fun _ => rfl⟩

/-! ## Reading and writing files -/

theorem keeps_piperead (p : ℕ) (g : Ctx) : Keeps (piperead p) g :=
  safe_kop trivial fun _ => Keeps.when ⟨trivial, fun _ => rfl⟩

theorem keeps_pipeFull (p : ℕ) (g : Ctx) : Keeps (pipeFull p) g :=
  safe_kop trivial fun _ => safe_kop trivial fun _ => rfl

theorem keeps_pipewrite (p : ℕ) (g : Ctx) : Keeps (pipewrite p) g :=
  (keeps_someTimes (keeps_pipeFull p g)).bind fun _ => ⟨trivial, fun _ => rfl⟩

theorem safe_locked {ip : Inum} {g : Ctx} {p q : KProg Unit} {Q : Unit → Ctx → Prop}
    (hp : Keeps p (g.lock ip)) (hq : q.Safe kernelRules Q g) :
    (do ilock ip; p; kop (.iunlock ip); q).Safe kernelRules Q g := by
  rw [safe_bind]
  refine safe_ilock (hp.bind fun _ => safe_kop (g.mem_inodes_lock ip) fun _ => ?_)
  rw [KOp.next, Ctx.unlock_lock]
  exact hq

theorem keeps_fileread (g : Ctx) : Keeps fileread g := by
  refine safe_kop trivial fun n => ?_
  split
  · exact rfl
  · exact safe_kop trivial fun p => keeps_piperead p g
  · refine safe_kop trivial fun ip => ?_
    rw [safe_bind]
    refine safe_ilock ((keeps_readi (g.mem_inodes_lock ip)).bind fun _ => ?_)
    exact ⟨g.mem_inodes_lock ip, fun _ => g.unlock_lock ip⟩
  · exact safe_kpanic

theorem keeps_writeChunk (ip : Inum) (g : Ctx) : Keeps (writeChunk ip) g :=
  safe_kop trivial fun _ =>
    safe_locked (keeps_writei (Ctx.mem_inodes_lock _ ip)) (safe_endOp g.opBegun_ops_pos rfl)

theorem keeps_filewrite (g : Ctx) : Keeps filewrite g := by
  refine safe_kop trivial fun n => ?_
  split
  · exact rfl
  · exact safe_kop trivial fun p => keeps_pipewrite p g
  · exact safe_kop trivial fun ip => keeps_someTimes (keeps_writeChunk ip g)
  · exact safe_kpanic

theorem keeps_filestat (g : Ctx) : Keeps filestat g := by
  refine (keeps_maybe g).bind fun _ => Keeps.when (safe_kop trivial fun ip => ?_)
  rw [safe_bind]
  exact safe_ilock ⟨g.mem_inodes_lock ip, fun _ => g.unlock_lock ip⟩

theorem keeps_onFile (n : ℤ) {call : KProg Unit} {g : Ctx} (hc : g.closing = none)
    (h : Keeps call g) : Keeps (onFile n call) g := by
  refine (keeps_fsCall (fsKeeps_argfd n hc)).bind fun r => ?_
  rcases r with _ | f
  · exact rfl
  · exact h

theorem keeps_sysPipe {g : Ctx} (hc : g.closing = none) : Keeps sysPipe g := by
  have hclose : ∀ rf wf, Keeps (do fsCall (fileclose rf); fsCall (fileclose wf)) g :=
    fun rf wf => (keeps_fsCall (fsKeeps_fileclose rf g)).bind fun _ =>
      keeps_fsCall (fsKeeps_fileclose wf g)
  refine safe_kop trivial fun r => ?_
  rw [safe_ite]
  split
  · refine safe_kop trivial fun rf => safe_kop trivial fun wf => ?_
    refine (keeps_fsCall (fsKeeps_fdalloc rf hc)).bind fun r => ?_
    rcases r with _ | fd0
    · exact hclose rf wf
    · refine (keeps_fsCall (fsKeeps_fdalloc wf hc)).bind fun r => ?_
      rcases r with _ | fd1
      · refine safe_kop trivial fun _ => ?_
        rw [KOp.next, Ctx.seeFd_eq hc]
        exact hclose rf wf
      · exact rfl
  · exact rfl

/-! ## `exec` and `growproc` -/

theorem safe_execBad (pgdir : Option ℕ) (ip : Inum) (g : Ctx) :
    (execBad pgdir ip).Safe kernelRules (fun _ g' => g' = g) (g.opBegun.lock ip) := by
  refine (Keeps.when (p := kop (.freevm _)) ⟨trivial, fun _ => rfl⟩).bind fun _ => ?_
  rw [safe_bind]
  exact safe_fsCall (safe_iunlockput (safe_endOp g.opBegun_ops_pos rfl))

theorem keeps_execLoad (d : ℕ) {ip : Inum} {g : Ctx} (h : ip ∈ g.inodes) :
    ∀ n, Keeps (execLoad d ip n) g
  | 0 => rfl
  | n + 1 => by
    refine (keeps_readi h).bind fun _ => (keeps_maybe g).bind fun load => ?_
    rw [safe_ite]
    split
    · refine safe_kop trivial fun r => ?_
      rw [safe_ite]
      split
      · refine (keeps_someTimes (keeps_readi h)).bind fun _ => (keeps_maybe g).bind fun ok => ?_
        rw [safe_ite]
        split
        · exact keeps_execLoad d h n
        · exact rfl
      · exact rfl
    · exact keeps_execLoad d h n

theorem keeps_execCommit (d : ℕ) (g : Ctx) : Keeps (execCommit d) g := by
  refine safe_kop trivial fun r => ?_
  rw [safe_ite]
  split
  · refine (keeps_maybe g).bind fun ok => ?_
    rw [safe_ite]
    split
    · exact safe_kop trivial fun _ => safe_kop trivial fun _ => safe_kop trivial fun _ =>
        ⟨trivial, fun _ => rfl⟩
    · exact ⟨trivial, fun _ => rfl⟩
  · exact ⟨trivial, fun _ => rfl⟩

theorem keeps_exec (path : List UInt8) (g : Ctx) : Keeps (exec path) g := by
  refine safe_kop trivial fun _ => (keeps_fsCall (fsKeeps_namei path _)).bind fun r => ?_
  rcases r with _ | ip
  · exact safe_endOp g.opBegun_ops_pos rfl
  · have hmem : ip ∈ (g.opBegun.lock ip).inodes := Ctx.mem_inodes_lock _ ip
    show Prog.Safe _ _ (do ilock ip; _) _
    rw [safe_bind]
    refine safe_ilock ((keeps_readi hmem).bind fun _ => (keeps_maybe _).bind fun ok => ?_)
    rw [safe_ite]
    split
    · refine safe_kop trivial fun r => ?_
      rcases r with _ | d
      · exact safe_execBad none ip g
      · refine safe_kop trivial fun n => (keeps_execLoad d hmem n).bind fun ok => ?_
        rw [safe_ite]
        split
        · rw [safe_bind]
          refine safe_fsCall (safe_iunlockput ?_)
          rw [safe_bind]
          exact safe_endOp g.opBegun_ops_pos (keeps_execCommit d g)
        · exact safe_execBad (some d) ip g
    · exact safe_execBad none ip g

theorem keeps_growproc (g : Ctx) : Keeps growproc g := by
  refine safe_kop trivial fun d => (keeps_maybe g).bind fun grow => ?_
  rw [safe_ite]
  split
  · exact safe_kop trivial fun _ => Keeps.when ⟨trivial, fun _ => rfl⟩
  · exact safe_kop trivial fun _ => ⟨trivial, fun _ => rfl⟩

/-! ## Processes and threads -/

theorem keeps_fork : Keeps fork Ctx.start := by
  unfold Keeps fork allocproc
  rw [safe_bind]
  refine safe_kop rfl fun r => ?_
  rcases r with _ | np
  · exact rfl
  · refine safe_kop rfl fun ok => ?_
    rcases ok with _ | _
    · exact rfl
    · refine safe_kop rfl fun _ => safe_kop rfl fun ok => ?_
      rcases ok with _ | _
      · exact safe_kop rfl fun _ => rfl
      · refine safe_kop rfl fun _ => ?_
        rw [safe_bind]
        have hfiles := Prog.Safe.each (𝓡 := kernelRules) (b := fun fd => kop (.forkFile np fd))
          (I := fun _ g' => g' = { Ctx.start with np := some (np, .child) })
          (fun fd _ g' hg => by subst hg; exact ⟨rfl, fun _ => rfl⟩) (List.finRange nofile) rfl
        refine hfiles.mono ?_
        rintro - g' rfl
        exact safe_kop rfl fun _ => ⟨rfl, fun _ => rfl⟩

theorem keeps_kthreadCreate (size : ℕ) : Keeps (kthreadCreate size) Ctx.start := by
  refine safe_kop rfl fun r => ?_
  rcases r with _ | t
  · exact rfl
  · exact safe_kop rfl fun _ => ⟨rfl, fun _ => rfl⟩

theorem keeps_kthreadExit : Keeps kthreadExit Ctx.start :=
  safe_kop ⟨Ctx.start_idle, rfl⟩ fun _ => safe_exit Ctx.start_idle

theorem keeps_forkret : Keeps forkret Ctx.start :=
  safe_kop trivial fun _ => (keeps_initlog Ctx.start).when

/-! ## Traps -/

theorem Keeps.ignore {α : Type} {p : KProg α} {g : Ctx} (h : Keeps p g) :
    Keeps (do let _ ← p) g :=
  h.bind fun _ => rfl

theorem keeps_syscall (call : Sys) : Keeps (syscall call) Ctx.start := by
  cases call with
  | fork => exact keeps_fork.ignore
  | exit => exact safe_exit Ctx.start_idle
  | pipe => exact keeps_sysPipe rfl
  | read fd => exact keeps_onFile fd rfl (keeps_fileread _)
  | write fd => exact keeps_onFile fd rfl (keeps_filewrite _)
  | fstat fd => exact keeps_onFile fd rfl (keeps_filestat _)
  | exec path =>
    rcases path with _ | path
    · exact rfl
    · exact keeps_exec path _
  | chdir path => exact (keeps_fsCall (fsKeeps_sysChdir path rfl)).ignore
  | dup fd => exact (keeps_fsCall (fsKeeps_sysDup fd rfl)).ignore
  | sbrk => exact keeps_growproc _
  | «open» args => exact (keeps_fsCall (fsKeeps_sysOpen args rfl)).ignore
  | mknod path major minor => exact (keeps_fsCall (fsKeeps_makeNode path .dev major minor _)).ignore
  | unlink path => exact (keeps_fsCall (fsKeeps_sysUnlink path _)).ignore
  | link args => exact (keeps_fsCall (fsKeeps_sysLink args _)).ignore
  | mkdir path => exact (keeps_fsCall (fsKeeps_makeNode path .dir 0 0 _)).ignore
  | close fd => exact (keeps_fsCall (fsKeeps_sysClose fd rfl)).ignore
  | kthreadCreate size => exact (keeps_kthreadCreate size).ignore
  | kthreadExit => exact keeps_kthreadExit
  | wait | kill | sleep | kthreadJoin => exact safe_kop trivial fun _ => rfl
  | getpid | uptime | kthreadId => exact rfl

/-- **The code of every trap keeps to the discipline**, and leaves the kernel with nothing
in its hands. -/
theorem safe_trap (t : Trap) : Keeps (trap t) Ctx.start := by
  cases t with
  | syscall call =>
    refine keeps_exitIfKilled.bind fun _ => safe_kop trivial fun _ => ?_
    exact (keeps_syscall call).bind fun _ => keeps_exitIfKilled
  | irq => exact keeps_exitIfKilled
  | fault => exact safe_kop trivial fun _ => keeps_exitIfKilled

end Xv6.Proc
