import Xv6.Proc.Code
import Mathlib.Data.Multiset.Basic
import Mathlib.Data.Multiset.AddSub

/-!
# The discipline that the kernel's code keeps to

What a thread in the kernel can rely on, and what it owes: the process or thread it is
setting up, the buffers and inodes it has marked busy, the log operations it has begun,
and, inside `exit`, the descriptors it has seen closed.  `Ctx` is that knowledge,
`kernelRules` says how each operation moves it and what it takes to perform it.

* A process is set up by the thread that found its slot, and a thread by the one that
  found it; afterwards it is let go.
* Only a buffer or inode that was taken is given back, and an operation is ended only by
  a thread that has begun one.
* A thread exits, and `exit` comes to its critical section, with nothing in its hands;
  all descriptors and the current directory have then been seen closed.

This file has the rules and goes through the code up to blocks and inodes; `SafeCalls`
goes through the calls.
-/

namespace Xv6.Proc

open Fs (Inum FileId FsOp FsProg)
open Prog (safe_bind safe_vis safe_ret safe_pure)

/-- How far `fork` has come with the child's entry. -/
inductive Stage where
  | found
  | stack
  /-- Its first thread has a context; that is all `allocproc` does. -/
  | init
  | image
  | child
  deriving DecidableEq

/-- What is known of a thread in the kernel. -/
structure Ctx where
  /-- The process it is setting up in `fork`. -/
  np : Option (PId × Stage)
  /-- The thread it is setting up in `kthread_create`, and whether it has a context. -/
  nt : Option (TId × Bool)
  bufs : Multiset (Fin nbuf)
  inodes : Multiset Inum
  ops : ℕ
  /-- Inside `exit`: the descriptors seen closed, and whether the current directory is. -/
  closing : Option (List (Fin nofile) × Bool)

variable {g : Ctx} {ip : Inum}

namespace Ctx

/-- Nothing in its hands. -/
structure Idle (g : Ctx) : Prop where
  np : g.np = none
  nt : g.nt = none
  bufs : g.bufs = 0
  inodes : g.inodes = 0
  ops : g.ops = 0

/-- A thread that has just entered the kernel. -/
def start : Ctx := ⟨none, none, 0, 0, 0, none⟩

theorem start_idle : start.Idle := ⟨rfl, rfl, rfl, rfl, rfl⟩

/-- A buffer is marked busy, and let go. -/
def hold (g : Ctx) (b : Fin nbuf) : Ctx := { g with bufs := b ::ₘ g.bufs }

@[inherit_doc hold]
def release (g : Ctx) (b : Fin nbuf) : Ctx := { g with bufs := g.bufs.erase b }

/-- An inode is marked busy, and let go. -/
def lock (g : Ctx) (ip : Inum) : Ctx := { g with inodes := ip ::ₘ g.inodes }

@[inherit_doc lock]
def unlock (g : Ctx) (ip : Inum) : Ctx := { g with inodes := g.inodes.erase ip }

/-- A log operation begins, and ends. -/
def opBegun (g : Ctx) : Ctx := { g with ops := g.ops + 1 }

@[inherit_doc opBegun]
def opEnded (g : Ctx) : Ctx := { g with ops := g.ops - 1 }

@[simp] theorem mem_bufs_hold (g : Ctx) (b : Fin nbuf) : b ∈ (g.hold b).bufs :=
  Multiset.mem_cons_self b _

@[simp] theorem release_hold (g : Ctx) (b : Fin nbuf) : (g.hold b).release b = g := by
  simp [hold, release]

theorem hold_comm (g : Ctx) (a b : Fin nbuf) : (g.hold a).hold b = (g.hold b).hold a := by
  simp [hold, Multiset.cons_swap]

@[simp] theorem mem_inodes_lock (g : Ctx) (ip : Inum) : ip ∈ (g.lock ip).inodes :=
  Multiset.mem_cons_self ip _

@[simp] theorem unlock_lock (g : Ctx) (ip : Inum) : (g.lock ip).unlock ip = g := by
  simp [lock, unlock]

theorem lock_unlock (h : ip ∈ g.inodes) : (g.unlock ip).lock ip = g := by
  simp [lock, unlock, Multiset.cons_erase h]

theorem lock_comm (g : Ctx) (ip jp : Inum) : (g.lock ip).lock jp = (g.lock jp).lock ip := by
  simp [lock, Multiset.cons_swap]

@[simp] theorem opEnded_opBegun (g : Ctx) : g.opBegun.opEnded = g := rfl

@[simp] theorem opBegun_ops_pos (g : Ctx) : 0 < g.opBegun.ops := Nat.succ_pos _

@[simp] theorem lock_ops (g : Ctx) (ip : Inum) : (g.lock ip).ops = g.ops := rfl

@[simp] theorem lock_closing (g : Ctx) (ip : Inum) : (g.lock ip).closing = g.closing := rfl

@[simp] theorem opBegun_closing (g : Ctx) : g.opBegun.closing = g.closing := rfl

/-- The descriptor has been seen closed. -/
def seeFd (g : Ctx) (fd : Fin nofile) : Ctx :=
  { g with closing := g.closing.map fun c => (fd :: c.1, c.2) }

/-- The current directory has been let go. -/
def seeCwd (g : Ctx) : Ctx :=
  { g with closing := g.closing.map fun c => (c.1, true) }

theorem seeFd_eq (h : g.closing = none) (fd : Fin nofile) : g.seeFd fd = g := by
  obtain ⟨np, nt, bufs, inodes, ops, closing⟩ := g
  subst h
  rfl

/-- Everything that `exit` closes has been seen closed. -/
def AllClosed (g : Ctx) : Prop := ∃ fds, g.closing = some (fds, true) ∧ ∀ fd, fd ∈ fds

end Ctx

/-- What it takes to perform an operation. -/
@[simp] def KOp.pre : KOp → Ctx → Prop
  | .procAlloc, g => g.np = none
  | .stackAlloc p, g => g.np = some (p, .found)
  | .procInit p, g => g.np = some (p, .stack)
  | .copyuvm p, g => g.np = some (p, .init)
  | .forkFail p, g => g.np = some (p, .init)
  | .forkThread p, g => g.np = some (p, .image)
  | .forkFile p _, g => g.np = some (p, .child)
  | .forkCwd p, g => g.np = some (p, .child)
  | .forkDone p, g => g.np = some (p, .child)
  | .threadAlloc, g => g.nt = none
  | .threadInit t _, g => g.nt = some (t, false)
  | .threadReady t, g => g.nt = some (t, true)
  | .threadExit, g => g.Idle ∧ g.closing = none
  | .exitEnter, g => g.Idle
  | .exitDone, g => g.Idle ∧ g.AllClosed
  | .brelse b, g => b ∈ g.bufs
  | .iunlock ip, g => ip ∈ g.inodes
  | .iputEnd ip freed, g => freed = true → ip ∈ g.inodes
  | .endOp, g => 0 < g.ops
  | .setOfile _ (some _), g => g.closing = none
  | .setCwd (some _), g => g.closing = none
  | _, _ => True

/-- What is known after an operation. -/
@[simp] def KOp.next : (e : KOp) → e.Ans → Ctx → Ctx
  | .procAlloc, r, g => { g with np := r.map fun p => (p, .found) }
  | .stackAlloc p, r, g => { g with np := if r then some (p, .stack) else none }
  | .procInit p, _, g => { g with np := some (p, .init) }
  | .copyuvm p, r, g => { g with np := some (p, if r then .image else .init) }
  | .forkFail _, _, g => { g with np := none }
  | .forkThread p, _, g => { g with np := some (p, .child) }
  | .forkDone _, _, g => { g with np := none }
  | .threadAlloc, r, g => { g with nt := r.map fun t => (t, false) }
  | .threadInit t _, _, g => { g with nt := some (t, true) }
  | .threadReady _, _, g => { g with nt := none }
  | .exitEnter, _, g => { g with closing := some ([], false) }
  | .bget, b, g => g.hold b
  | .brelse b, _, g => g.release b
  | .ilock ip, _, g => g.lock ip
  | .iunlock ip, _, g => g.unlock ip
  | .iputTest ip, r, g => if r then g.lock ip else g
  | .iputEnd ip freed, _, g => if freed then g.unlock ip else g
  | .beginOp, _, g => g.opBegun
  | .endOp, _, g => g.opEnded
  | .ofile fd, none, g => g.seeFd fd
  | .setOfile fd none, _, g => g.seeFd fd
  | .setCwd none, _, g => g.seeCwd
  | _, _, g => g

/-- The discipline of the kernel's code. -/
def kernelRules : Rules KOp KOp.Ans Ctx := ⟨KOp.pre, KOp.next⟩

@[simp] theorem kernelRules_pre (e : KOp) : kernelRules.pre e = e.pre := rfl

@[simp] theorem kernelRules_next (e : KOp) (r : e.Ans) (g : Ctx) :
    kernelRules.next e r g = e.next r g := rfl

/-- The code keeps to the discipline, and knows afterwards what it knew before. -/
def Keeps {α : Type} (p : KProg α) (g : Ctx) : Prop := p.Safe kernelRules (fun _ g' => g' = g) g

@[simp] theorem kop_eq_vis (e : KOp) : kop e = Prog.vis e Prog.ret := rfl

@[simp] theorem safe_kpanic {α : Type} {Q : α → Ctx → Prop} :
    (kpanic : KProg α).Safe kernelRules Q g :=
  ⟨trivial, fun r => r.elim⟩

theorem Keeps.then {α : Type} {p : KProg α} {Q : α → Ctx → Prop} (h : Keeps p g) (hQ : ∀ a, Q a g) :
    p.Safe kernelRules Q g :=
  Prog.Safe.mono h fun a _ hg => hg ▸ hQ a

theorem Keeps.when {c : Prop} [Decidable c] {p : KProg Unit} (h : Keeps p g) :
    Keeps (Prog.when c p) g :=
  Prog.safe_when.mpr ⟨fun _ => h, fun _ => rfl⟩

@[simp] theorem safe_maybe {Q : Bool → Ctx → Prop} :
    maybe.Safe kernelRules Q g ↔ ∀ n : ℕ, Q (n != 0) g := by
  simp [maybe]

theorem keeps_someTimes {body : KProg Unit} (h : Keeps body g) : Keeps (someTimes body) g := by
  simp only [Keeps, someTimes, safe_bind, kop_eq_vis, safe_vis, safe_ret, kernelRules_pre,
    kernelRules_next, KOp.pre, KOp.next, true_and]
  intro n
  exact Prog.Safe.each (I := fun _ g' => g' = g) (fun _ _ g' hg' => hg' ▸ h) _ rfl

/-! ## Buffers and the log -/

theorem safe_bread {Q : Fin nbuf → Ctx → Prop} (h : ∀ b, Q b (g.hold b)) :
    bread.Safe kernelRules Q g := by
  simp only [bread, safe_bind, safe_maybe]
  refine ⟨trivial, fun b n => ?_⟩
  exact (Keeps.when (p := kop (.iderw b)) ⟨trivial, fun _ => rfl⟩).then fun _ => h b

theorem keeps_bpeek (g : Ctx) : Keeps bpeek g := by
  simp only [Keeps, bpeek, safe_bind]
  exact safe_bread fun b => by simp

theorem keeps_bmodify (g : Ctx) : Keeps bmodify g := by
  simp only [Keeps, bmodify, safe_bind]
  exact safe_bread fun b => by simp

theorem keeps_copyBlock (g : Ctx) : Keeps copyBlock g := by
  simp only [Keeps, copyBlock, safe_bind]
  refine safe_bread fun src => safe_bread fun dst => ?_
  -- the first is given back first
  rw [Ctx.hold_comm]
  simp

theorem keeps_writeHead (g : Ctx) : Keeps writeHead g := by
  simp only [Keeps, writeHead, safe_bind]
  exact safe_bread fun b => by simp

theorem keeps_commit (g : Ctx) : Keeps commit g := by
  simp only [Keeps, commit, safe_bind, safe_maybe]
  refine fun n => Keeps.when ?_
  simp only [Keeps, safe_bind]
  refine (keeps_someTimes (keeps_copyBlock g)).then fun _ => ?_
  refine (keeps_writeHead g).then fun _ => ?_
  exact (keeps_someTimes (keeps_copyBlock g)).then fun _ => keeps_writeHead g

theorem safe_endOp (h : 0 < g.ops) {Q : Unit → Ctx → Prop} (hQ : Q () g.opEnded) :
    endOp.Safe kernelRules Q g := by
  simp only [endOp, safe_bind]
  refine ⟨h, fun r => Prog.safe_when.mpr ⟨fun _ => ?_, fun _ => hQ⟩⟩
  rw [safe_bind]
  exact (keeps_commit _).then fun _ => ⟨trivial, fun _ => hQ⟩

theorem keeps_initlog (g : Ctx) : Keeps initlog g := by
  simp only [Keeps, initlog, safe_bind]
  refine (keeps_bpeek g).then fun _ => (keeps_bpeek g).then fun _ => ?_
  exact (keeps_someTimes (keeps_copyBlock g)).then fun _ => keeps_writeHead g

/-! ## Blocks and inodes -/

theorem keeps_balloc (g : Ctx) : Keeps balloc g := by
  simp only [Keeps, balloc, readsb, safe_bind, safe_maybe, Prog.safe_ite]
  refine (keeps_bpeek g).then fun _ => (keeps_someTimes (keeps_bpeek g)).then fun _ n => ?_
  split
  · exact (keeps_bmodify g).then fun _ => keeps_bmodify g
  · exact safe_kpanic

theorem keeps_bfree (g : Ctx) : Keeps bfree g := by
  simp only [Keeps, bfree, readsb, safe_bind]
  exact (keeps_bpeek g).then fun _ => keeps_bmodify g

theorem keeps_iupdate (g : Ctx) : Keeps iupdate g := keeps_bmodify g

theorem keeps_bmapIndirect (g : Ctx) : Keeps bmapIndirect g := by
  simp only [Keeps, bmapIndirect, safe_bind, safe_maybe]
  refine fun n => (keeps_balloc g).when.then fun _ => safe_bread fun b => ?_
  intro n
  refine Keeps.then (Keeps.when ?_) fun _ => by simp
  simp only [Keeps, safe_bind]
  exact (keeps_balloc _).then fun _ => ⟨trivial, fun _ => rfl⟩

theorem keeps_bmap (g : Ctx) : Keeps bmap g := by
  simp only [Keeps, bmap, safe_bind, safe_maybe]
  intro n
  split
  · simp only [safe_bind, safe_maybe]
    exact fun n => (keeps_balloc g).when
  · exact keeps_bmapIndirect g

theorem keeps_itruncIndirect (g : Ctx) : Keeps itruncIndirect g := by
  simp only [Keeps, itruncIndirect, safe_bind]
  refine safe_bread fun b => (keeps_someTimes (keeps_bfree _)).then fun _ => ?_
  refine ⟨Ctx.mem_bufs_hold g b, fun _ => ?_⟩
  simp only [safe_ret, kernelRules_next, KOp.next, Ctx.release_hold]
  exact keeps_bfree g

theorem keeps_itrunc (g : Ctx) : Keeps itrunc g := by
  simp only [Keeps, itrunc, safe_bind, safe_maybe]
  refine (keeps_someTimes (keeps_bfree g)).then fun _ n => ?_
  exact (keeps_itruncIndirect g).when.then fun _ => keeps_iupdate g

theorem safe_ilock {Q : Unit → Ctx → Prop} (hQ : Q () (g.lock ip)) :
    (ilock ip).Safe kernelRules Q g := by
  simp only [ilock, safe_bind, kop_eq_vis, safe_vis, kernelRules_pre, KOp.pre, kernelRules_next,
    KOp.next, safe_ret, safe_maybe, true_and]
  exact fun _ n => (keeps_bpeek _).when.then fun _ => hQ

theorem keeps_consoleread (h : ip ∈ g.inodes) : Keeps (consoleread ip) g := by
  simp only [Keeps, consoleread, safe_bind, kop_eq_vis, safe_vis, kernelRules_pre, KOp.pre,
    kernelRules_next, KOp.next, safe_ret, true_and]
  exact ⟨h, fun _ _ => safe_ilock (Ctx.lock_unlock h)⟩

theorem keeps_consolewrite (h : ip ∈ g.inodes) : Keeps (consolewrite ip) g := by
  simp only [Keeps, consolewrite, safe_bind, kop_eq_vis, safe_vis, kernelRules_pre, KOp.pre,
    kernelRules_next, KOp.next, safe_ret]
  exact ⟨h, fun _ => safe_ilock (Ctx.lock_unlock h)⟩

theorem keeps_blocks {use : KProg Unit} (h : Keeps use g) : Keeps (someTimes do bmap; use) g := by
  refine keeps_someTimes ?_
  simp only [Keeps, safe_bind]
  exact (keeps_bmap g).then fun _ => h

theorem keeps_readi (h : ip ∈ g.inodes) : Keeps (readi ip) g := by
  simp only [Keeps, readi, safe_bind, safe_maybe, Prog.safe_ite]
  intro n
  split
  · exact keeps_consoleread h
  · exact keeps_blocks (keeps_bpeek g)

theorem keeps_writei (h : ip ∈ g.inodes) : Keeps (writei ip) g := by
  simp only [Keeps, writei, safe_bind, safe_maybe]
  intro n
  split
  · exact keeps_consolewrite h
  · simp only [safe_bind, safe_maybe]
    exact (keeps_blocks (keeps_bmodify g)).then fun _ n => (keeps_iupdate g).when

theorem keeps_readDir (g : Ctx) : Keeps readDir g := keeps_blocks (keeps_bpeek g)

theorem keeps_writeDir (g : Ctx) : Keeps writeDir g := by
  simp only [Keeps, writeDir, safe_bind, safe_maybe]
  refine (keeps_bmap g).then fun _ => (keeps_bmodify g).then fun _ n => ?_
  exact (keeps_iupdate g).when

end Xv6.Proc
