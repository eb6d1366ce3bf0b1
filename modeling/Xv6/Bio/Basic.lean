import Xv6.Lib.CircularList
import Xv6.Lib.Transition
import Xv6.Log.Basic

/-!
# The buffer cache

`bio.c` keeps `NBUF` buffers in a circular list, the most recently used one first.  The list
is the pointers themselves, `links`, and the loops of `bget` follow them; that they come back
to the head is a theorem and not part of the model.

Callers are threads of the kernel.  Each has the buffers that `bread` has returned to it and
that it has not passed to `brelse`, and the interface of `bio.c` allows it to work on those
only; `Pc` says where it is inside a call.  A step is one section of code that runs under a
lock, or one that only its thread can take part in:

* `bread` is the call, the locked part of `bget`, the test of `B_VALID` and `iderw`; a thread
  that finds its buffer busy sleeps, and scans the list again when it is woken up;
* `bwrite` is its first half and `iderw`;
* `log_write` is the tests before its lock, and the part under the lock;
* a store into the data of a buffer is a step of its own, and so is `brelse`.

`iderw` is that of the memory disk.  The rest of `log.c` works on the log alone, and is one
action that changes it in any way.
-/

namespace Xv6.Bio

open Function Transition

/-- A device and a sector of it. -/
abbrev Addr := UInt32 × UInt32

/-- `struct buf`, less its pointers. -/
structure Buf where
  /-- `B_BUSY` -/
  busy : Bool
  /-- `B_VALID` -/
  valid : Bool
  /-- `B_DIRTY` -/
  dirty : Bool
  dev : UInt32
  sector : UInt32
  data : Block

namespace Buf

/-- What the buffer is for. -/
def addr (x : Buf) : Addr := (x.dev, x.sector)

/-- A buffer in zeroed memory. -/
def zero : Buf := ⟨false, false, false, 0, 0, .zero⟩

end Buf

/-- A `struct buf *` of the list; `none` is `&bcache.head`. -/
abbrev Node := Option (Fin nbuf)

/-- `bcache`, less its lock. -/
structure Bcache where
  buf : Fin nbuf → Buf
  links : Links Node

/-- The panics of `bio.c`, `iderw` and `log_write`. -/
inductive Panic where
  /-- `"bget: no buffers"` -/
  | noBuffers
  | bwrite
  | brelse
  /-- `"iderw: buf not busy"` -/
  | notBusy
  /-- `"iderw: nothing to do"` -/
  | nothingToDo
  /-- `"iderw: request not for disk 1"` -/
  | notDisk1
  /-- `"iderw: sector out of range"` -/
  | outOfRange
  | log (p : LogPanic)

/-- How the locked part of `bget` ends. -/
inductive Got where
  | taken (b : Fin nbuf) (cache : Bcache)
  | busy (b : Fin nbuf)
  | noBuffers

namespace Bcache

/-- Change the fields of a buffer. -/
def set (c : Bcache) (b : Fin nbuf) (f : Buf → Buf) : Bcache :=
  { c with buf := update c.buf b (f (c.buf b)) }

/-- The body of the loop of `binit`. -/
def initBuf (c : Bcache) (b : Fin nbuf) : Bcache :=
  { c.set b fun x => { x with dev := -1 } with links := c.links.insertAfter none (some b) }

def binit (c : Bcache) : Bcache :=
  (List.finRange nbuf).foldl initBuf
    { c with links := (c.links.setPrev none none).setNext none none }

/-- The test of the first loop of `bget`. -/
def isFor (c : Bcache) (a : Addr) : Node → Bool
  | none => false
  | some b => (c.buf b).dev == a.1 && (c.buf b).sector == a.2

/-- The test of the second loop of `bget`. -/
def isFree : Bcache → Node → Bool
  | _, none => false
  | c, some b => !(c.buf b).busy && !(c.buf b).dirty

/-- The first loop of `bget`: `some none` if it comes back to the head, `none` if it does not
end. -/
def cached (c : Bcache) (a : Addr) : Option Node :=
  (search c.links.next none (c.isFor a) (nbuf + 1) (c.links.next none)).map Option.join

/-- The second loop of `bget`. -/
def unused (c : Bcache) : Option Node :=
  (search c.links.prev none c.isFree (nbuf + 1) (c.links.prev none)).map Option.join

/-- The part of `bget` under the lock. -/
def bget (c : Bcache) (a : Addr) : Option Got :=
  match c.cached a with
  | none => none
  | some (some b) =>
    if (c.buf b).busy then some (.busy b)
    else some (.taken b (c.set b fun x => { x with busy := true }))
  | some none =>
    match c.unused with
    | none => none
    | some (some b) => some (.taken b (c.set b fun x =>
      { x with dev := a.1, sector := a.2, busy := true, valid := false, dirty := false }))
    | some none => some .noBuffers

/-- `brelse` under its lock. -/
def brelse (c : Bcache) (b : Fin nbuf) : Bcache :=
  { c.set b fun x => { x with busy := false } with
    links := (c.links.unlink (some b)).insertAfter none (some b) }

end Bcache

/-- `iderw` of the memory disk, which has `disksize` sectors. -/
def iderw (disksize : ℕ) (disk : Addr → Block) (x : Buf) : Except Panic (Buf × (Addr → Block)) :=
  if x.busy = false then .error .notBusy
  else if x.valid && !x.dirty then .error .nothingToDo
  else if x.dev ≠ 1 then .error .notDisk1
  else if disksize ≤ x.sector.toNat then .error .outOfRange
  else if x.dirty then
    .ok ({ x with dirty := false, valid := true }, update disk x.addr x.data)
  else .ok ({ x with data := disk x.addr, valid := true }, disk)

/-- Where a caller is. -/
inductive Pc where
  | idle
  /-- In `bget`, about to scan the list. -/
  | getting (a : Addr)
  | asleep (a : Addr) (b : Fin nbuf)
  /-- In `bread`, after `bget`. -/
  | filling (a : Addr) (b : Fin nbuf)
  | reading (a : Addr) (b : Fin nbuf)
  | writing (b : Fin nbuf)
  /-- In `log_write`, about to take the lock. -/
  | logging (b : Fin nbuf)
  deriving DecidableEq

namespace Pc

/-- A caller that sleeps on `b` is woken up. -/
def wake (b : Fin nbuf) : Pc → Pc
  | .asleep a b' => if b' = b then .getting a else .asleep a b'
  | pc => pc

end Pc

/-- The buffer cache, its disk and its callers. -/
structure State (C : Type) where
  cache : Bcache
  disk : Addr → Block
  log : Log
  /-- The buffers that `bget` has returned to a caller and that it has not released. -/
  held : C → List (Fin nbuf)
  pc : C → Pc

/-- The steps of a caller `c`. -/
inductive Act (C : Type) where
  | bread (c : C) (a : Addr)
  /-- `bget` takes its lock, or has it again. -/
  | bget (c : C)
  /-- The caller is woken up in `bget`, by whatever. -/
  | wake (c : C)
  /-- The test of `B_VALID` in `bread`. -/
  | look (c : C)
  | iderw (c : C)
  | modify (c : C) (b : Fin nbuf) (data : Block)
  | bwrite (c : C) (b : Fin nbuf)
  | logWrite (c : C) (b : Fin nbuf)
  /-- The part of `log_write` under its lock. -/
  | record (c : C)
  | brelse (c : C) (b : Fin nbuf)
  /-- The rest of `log.c`. -/
  | log (l : Log)

section Machine

variable {C : Type} [DecidableEq C]

namespace State

/-- The buffer at an index. -/
def buf (x : State C) (b : Fin nbuf) : Buf := x.cache.buf b

/-- Change the fields of a buffer. -/
def set (x : State C) (b : Fin nbuf) (f : Buf → Buf) : State C := { x with cache := x.cache.set b f }

/-- The caller goes on. -/
def goto (x : State C) (c : C) (pc : Pc) : State C := { x with pc := update x.pc c pc }

/-- The caller is in none of the functions and has the buffer. -/
def has (x : State C) (c : C) (b : Fin nbuf) : Bool := x.pc c == .idle && (x.held c).contains b

/-- `iderw` on `b`, called by `c`. -/
def transfer (x : State C) (disksize : ℕ) (c : C) (b : Fin nbuf) : Except Panic (State C) :=
  match iderw disksize x.disk (x.buf b) with
  | .error p => .error p
  | .ok (y, disk) => .ok ({ x.set b fun _ => y with disk := disk }.goto c .idle)

end State

/-- One step. -/
def step (disksize : ℕ) : StepFn (State C) (Act C) Panic
  | x, .bread c a =>
    match x.pc c with
    | .idle => some (.ok (x.goto c (.getting a)))
    | _ => none
  | x, .bget c =>
    match x.pc c with
    | .getting a =>
      match x.cache.bget a with
      | none => none
      | some (.busy b) => some (.ok (x.goto c (.asleep a b)))
      | some (.taken b cache) =>
        some (.ok ({ x with
          cache := cache
          held := update x.held c (b :: x.held c) }.goto c (.filling a b)))
      | some .noBuffers => some (.error .noBuffers)
    | _ => none
  | x, .wake c =>
    match x.pc c with
    | .asleep a _ => some (.ok (x.goto c (.getting a)))
    | _ => none
  | x, .look c =>
    match x.pc c with
    | .filling a b =>
      some (.ok (x.goto c (if (x.buf b).valid then .idle else .reading a b)))
    | _ => none
  | x, .iderw c =>
    match x.pc c with
    | .reading _ b => some (x.transfer disksize c b)
    | .writing b => some (x.transfer disksize c b)
    | _ => none
  | x, .modify c b data =>
    if x.has c b then some (.ok (x.set b fun y => { y with data := data })) else none
  | x, .bwrite c b =>
    if x.has c b then
      if (x.buf b).busy then
        some (.ok ((x.set b fun y => { y with dirty := true }).goto c (.writing b)))
      else some (.error .bwrite)
    else none
  | x, .logWrite c b =>
    if x.has c b then
      if x.log.tooBig then some (.error (.log .tooBig))
      else if x.log.outstanding < 1 then some (.error (.log .outsideTrans))
      else some (.ok (x.goto c (.logging b)))
    else none
  | x, .record c =>
    match x.pc c with
    | .logging b =>
      some (.ok ({ x.set b fun y => { y with dirty := true } with
        log := x.log.record (x.buf b).sector }.goto c .idle))
    | _ => none
  | x, .brelse c b =>
    if x.has c b then
      if (x.buf b).busy then
        some (.ok { x with
          cache := x.cache.brelse b
          held := update x.held c ((x.held c).erase b)
          pc := fun c' => (x.pc c').wake b })
      else some (.error .brelse)
    else none
  | x, .log l => some (.ok { x with log := l })

/-- The states that `binit` leaves, with nobody in any of the functions. -/
def Booted (x : State C) : Prop :=
  (∃ links, x.cache = Bcache.binit ⟨fun _ => .zero, links⟩) ∧ (∀ c, x.held c = []) ∧
    ∀ c, x.pc c = .idle

/-- What `bread` returns in a step: the caller, the sector it asked for and the buffer. -/
def returned (x : State C) : Act C → Option (C × Addr × Fin nbuf)
  | .look c =>
    match x.pc c with
    | .filling a b => if (x.buf b).valid then some (c, a, b) else none
    | _ => none
  | .iderw c =>
    match x.pc c with
    | .reading a b => some (c, a, b)
    | _ => none
  | _ => none

end Machine

end Xv6.Bio
