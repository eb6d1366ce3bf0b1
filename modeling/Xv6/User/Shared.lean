import Xv6.Lib.Transition
import Xv6.User.Checks
import Xv6.User.Space

/-!
# Threads that share their memory

The comment at `argstr` says that a string cannot change between the check and its use,
because there is no shared writable memory.  With kernel threads there is.  This module
runs the calls of several threads of one process, one operation at a time, together with
what the threads store from user space.

* `Item` --- something that a call has accepted.  A thread in a call keeps, besides its
  code, the list of these: it is not in the source, but it is what can go wrong.
* `Shared`, `step` --- the machine.  `growproc` reads `proc->sz`, changes the page directory
  under `ptable.lock` and stores `proc->sz`; `exec` stores `proc->pgdir` and then
  `proc->sz`; each of these is a step of its own.  A call that comes to `growproc` or to the
  commit does not look at what it has accepted any more, so it drops it there.

An access of the kernel to a user page that is not present is the panic `trap`.  A thread
makes a call with an instruction of its own, so the page of that instruction is present.
-/

namespace Xv6.User

open Transition Prog

/-- Something that a call has accepted: a range of `n` bytes at `p`, or a string at `s`
whose null byte was found at `e`. -/
inductive Item where
  | range (p n : UInt32)
  | str (s e : UInt32)

/-- What an operation accepts. -/
def Op.accepts : Op → UInt32 → Mem → List Item
  | .fits i n, sz, _ => if i + n ≤ sz then [.range i n] else []
  | .scan s a, _, m => if m a = 0 then [.str s a] else []
  | _, _, _ => []

/-- How far a thread is in `growproc` or in the commit of `exec`. -/
inductive Phase where
  | idle
  /-- `growproc` has read `proc->sz`. -/
  | growing (s : UInt32)
  /-- `growproc` has changed the page directory, and is to store `proc->sz`. -/
  | grown (s : UInt32)
  /-- `exec` has stored `proc->pgdir`, and is to store `proc->sz`. -/
  | replaced (s : UInt32)

/-- A thread: in user space, or in a call. -/
inductive Thread where
  | user
  | call (code : Code ℤ) (held : List Item) (phase : Phase)

def Thread.held : Thread → List Item
  | .user => []
  | .call _ held _ => held

def Thread.phase : Thread → Phase
  | .user => .idle
  | .call _ _ ph => ph

/-- A process with several threads. -/
structure Shared (ι : Type) where
  pgdir : Space
  sz : UInt32
  thread : ι → Thread

namespace Shared

variable {ι : Type} [DecidableEq ι]

def put (S : Shared ι) (t : ι) (th : Thread) : Shared ι :=
  { S with thread := Function.update S.thread t th }

/-- An access to a user page that is not present. -/
def faults (S : Shared ι) (e : Op) : Bool :=
  e.addresses.any fun a => decide (a.toNat < kernbase) && !S.pgdir.mapped a

/-- Thread `t` performs `e`, which does not resize the memory. -/
def perform (S : Shared ι) (t : ι) (W : World) (e : Op) (k : e.Ans → Code ℤ) (held : List Item) :
    Shared ι where
  pgdir := { S.pgdir with byte := (handler W S.sz).effect e S.pgdir.byte }
  sz := S.sz
  thread := Function.update S.thread t
    (.call (k ((handler W S.sz).answer e S.pgdir.byte)) (e.accepts S.sz S.pgdir.byte ++ held) .idle)

end Shared

/-- `growproc` and the commit of `exec`. -/
def Op.resizes : Op → Bool
  | .ask (.growproc _) => true
  | .ask .commit => true
  | _ => false

/-- The actions. -/
inductive Act (ι : Type) where
  /-- A call, from an instruction at `eip`. -/
  | enter (t : ι) (c : Syscall) (esp eip : UInt32)
  /-- The next operation of a call, or its end. -/
  | run (t : ι) (W : World)
  | growRead (t : ι)
  | growPages (t : ι) (avail : ℕ)
  | growStore (t : ι)
  | commitPgdir (t : ι) (avail : ℕ) (ends : List UInt32) (m : Mem)
  | commitSz (t : ι)
  | store (t : ι) (a : UInt32) (b : UInt8)

/-- The panics `trap` and `remap`. -/
inductive VmPanic where
  | trap
  | remap
  deriving DecidableEq

variable {ι : Type} [DecidableEq ι]

/-- One step. -/
def step : StepFn (Shared ι) (Act ι) VmPanic
  | S, .enter t c esp eip =>
    match S.thread t with
    | .user =>
      if S.pgdir.mapped eip then some (.ok (S.put t (.call (c.code esp) [] .idle))) else none
    | _ => none
  | S, .run t W =>
    match S.thread t with
    | .call (.ret _) _ .idle => some (.ok (S.put t .user))
    | .call (.vis e k) held .idle =>
      if e.resizes then none
      else if S.faults e then some (.error .trap)
      else some (.ok (S.perform t W e k held))
    | _ => none
  | S, .growRead t =>
    match S.thread t with
    | .call (.vis (.ask (.growproc n)) k) _ .idle =>
      some (.ok (S.put t (.call (.vis (.ask (.growproc n)) k) [] (.growing S.sz))))
    | _ => none
  | S, .growPages t avail =>
    match S.thread t with
    | .call (.vis (.ask (.growproc n)) k) held (.growing s) =>
      match growproc S.pgdir avail s n with
      | none => some (.error .remap)
      | some (d, none) =>
        some (.ok ({ S with pgdir := d }.put t (.call (k (-1)) held .idle)))
      | some (d, some s') => some (.ok ({ S with pgdir := d }.put t
          (.call (.vis (.ask (.growproc n)) k) held (.grown s'))))
    | _ => none
  | S, .growStore t =>
    match S.thread t with
    | .call (.vis (.ask (.growproc _)) k) held (.grown s) =>
      some (.ok ({ S with sz := s }.put t (.call (k 0) held .idle)))
    | _ => none
  | S, .commitPgdir t avail ends m =>
    match S.thread t with
    | .call (.vis (.ask .commit) k) _ .idle =>
      match execImage avail ends m with
      | none => none
      | some img => some (.ok ({ S with pgdir := img.space }.put t
          (.call (.vis (.ask .commit) k) [] (.replaced img.sz))))
    | _ => none
  | S, .commitSz t =>
    match S.thread t with
    | .call (.vis (.ask .commit) k) held (.replaced s) =>
      some (.ok ({ S with sz := s }.put t (.call (k 0) held .idle)))
    | _ => none
  | S, .store t a b =>
    match S.thread t with
    | .user =>
      if a.toNat < kernbase ∧ S.pgdir.mapped a then
        some (.ok { S with pgdir := { S.pgdir with byte := S.pgdir.byte.write a [b] } })
      else none
    | _ => none

/-- What a step does. -/
inductive Moves (S : Shared ι) : Act ι → Shared ι → Prop
  | enter {t : ι} {c : Syscall} {esp eip : UInt32} (ht : S.thread t = .user)
      (hm : S.pgdir.mapped eip = true) :
      Moves S (.enter t c esp eip) (S.put t (.call (c.code esp) [] .idle))
  | leave {t : ι} {W : World} {r : ℤ} {held : List Item}
      (ht : S.thread t = .call (.ret r) held .idle) : Moves S (.run t W) (S.put t .user)
  | run {t : ι} {W : World} {e : Op} {k : e.Ans → Code ℤ} {held : List Item}
      (ht : S.thread t = .call (.vis e k) held .idle) (he : e.resizes = false) :
      Moves S (.run t W) (S.perform t W e k held)
  | growRead {t : ι} {n : UInt32} {k : ℤ → Code ℤ} {held : List Item}
      (ht : S.thread t = .call (.vis (.ask (.growproc n)) k) held .idle) :
      Moves S (.growRead t) (S.put t (.call (.vis (.ask (.growproc n)) k) [] (.growing S.sz)))
  | growFails {t : ι} {avail : ℕ} {n s : UInt32} {k : ℤ → Code ℤ} {held : List Item} {d : Space}
      (ht : S.thread t = .call (.vis (.ask (.growproc n)) k) held (.growing s))
      (hd : growproc S.pgdir avail s n = some (d, none)) :
      Moves S (.growPages t avail) ({ S with pgdir := d }.put t (.call (k (-1)) held .idle))
  | growPages {t : ι} {avail : ℕ} {n s s' : UInt32} {k : ℤ → Code ℤ} {held : List Item}
      {d : Space} (ht : S.thread t = .call (.vis (.ask (.growproc n)) k) held (.growing s))
      (hd : growproc S.pgdir avail s n = some (d, some s')) :
      Moves S (.growPages t avail)
        ({ S with pgdir := d }.put t (.call (.vis (.ask (.growproc n)) k) held (.grown s')))
  | growStore {t : ι} {n s : UInt32} {k : ℤ → Code ℤ} {held : List Item}
      (ht : S.thread t = .call (.vis (.ask (.growproc n)) k) held (.grown s)) :
      Moves S (.growStore t) ({ S with sz := s }.put t (.call (k 0) held .idle))
  | commitPgdir {t : ι} {avail : ℕ} {ends : List UInt32} {m : Mem} {k : ℤ → Code ℤ}
      {held : List Item} {img : Image}
      (ht : S.thread t = .call (.vis (.ask .commit) k) held .idle) :
      Moves S (.commitPgdir t avail ends m) ({ S with pgdir := img.space }.put t
        (.call (.vis (.ask .commit) k) [] (.replaced img.sz)))
  | commitSz {t : ι} {s : UInt32} {k : ℤ → Code ℤ} {held : List Item}
      (ht : S.thread t = .call (.vis (.ask .commit) k) held (.replaced s)) :
      Moves S (.commitSz t) ({ S with sz := s }.put t (.call (k 0) held .idle))
  | store {t : ι} {a : UInt32} {b : UInt8} (ht : S.thread t = .user)
      (hm : S.pgdir.mapped a = true) :
      Moves S (.store t a b) { S with pgdir := { S.pgdir with byte := S.pgdir.byte.write a [b] } }

theorem Moves.of_step {S S' : Shared ι} {a : Act ι} (h : step S a = some (.ok S')) :
    Moves S a S' := by
  unfold step at h
  cases a with
  | enter t c esp eip =>
    dsimp only at h
    split at h
    · rename_i ht
      split at h
      · rename_i hm
        cases h
        exact .enter ht hm
      · cases h
    · cases h
  | run t W =>
    dsimp only at h
    split at h
    · rename_i ht
      cases h
      exact .leave ht
    · rename_i ht
      split at h
      · cases h
      · rename_i he
        split at h
        · cases h
        · cases h
          exact .run ht (by simpa using he)
    · cases h
  | growRead t =>
    dsimp only at h
    split at h
    · rename_i ht
      cases h
      exact .growRead ht
    · cases h
  | growPages t avail =>
    dsimp only at h
    split at h
    · rename_i ht
      split at h
      · cases h
      · rename_i hd
        cases h
        exact .growFails ht hd
      · rename_i hd
        cases h
        exact .growPages ht hd
    · cases h
  | growStore t =>
    dsimp only at h
    split at h
    · rename_i ht
      cases h
      exact .growStore ht
    · cases h
  | commitPgdir t avail ends m =>
    dsimp only at h
    split at h
    · rename_i ht
      split at h
      · cases h
      · cases h
        exact .commitPgdir ht
    · cases h
  | commitSz t =>
    dsimp only at h
    split at h
    · rename_i ht
      cases h
      exact .commitSz ht
    · cases h
  | store t a b =>
    dsimp only at h
    split at h
    · rename_i ht
      split at h
      · rename_i hm
        cases h
        exact .store ht hm.2
      · cases h
    · cases h

end Xv6.User
