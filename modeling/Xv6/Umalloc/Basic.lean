import Xv6.Lib.Cycle
import Xv6.Lib.Span
import Xv6.Lib.Transition

/-!
# The user's allocator

`umalloc.c` as a machine.  Every block of memory begins with a header of 8 bytes, that has the
size of the block in units of 8 bytes and, while the block is free, a pointer to the next free
block.  The free blocks are in a circular list, which `base` is on too: a header in the
program's data, of a block of size 0.  `freep` points into the list.

Addresses are numbers below `2 ^ 32`, and `ptr` and `size` are the fields of the header at each
address.  One thread calls `malloc` and `free`, and between the calls it may store what it
likes where it may.  A call of `malloc` that needs memory waits for the answer of `sbrk`, which
is a step of its own.  A loop that has passed more headers than there is memory for does not
end: the step then fails.

The state remembers what the calls of `sbrk` have obtained (`ranges`), and which pointers
`malloc` has returned that have not been freed (`live`).
-/

namespace Xv6.Umalloc

open Function Transition

/-- The headers in memory, and `freep`. -/
structure Heap where
  /-- `p->s.ptr` -/
  ptr : ℕ → ℕ
  /-- `p->s.size` -/
  size : ℕ → ℕ
  freep : ℕ

/-- `p + n` -/
def plus (p n : ℕ) : ℕ := (p + 8 * n) % 2 ^ 32

/-- `(Header*)ap - 1` -/
def header (ap : ℕ) : ℕ := (ap + 2 ^ 32 - 8) % 2 ^ 32

theorem header_add {p : ℕ} (h : p < 2 ^ 32) : header (p + 8) = p := by
  rw [header]
  omega

attribute [irreducible] header

namespace Heap

/-! ## free -/

/-- The loop of `free` is left at `p`. -/
def slot (H : Heap) (bp p : ℕ) : Bool :=
  p < bp && bp < H.ptr p || H.ptr p ≤ p && (p < bp || bp < H.ptr p)

/-- `bp` is joined to the block above it, or points to it. -/
def joinUpper (H : Heap) (bp p : ℕ) : Heap :=
  if plus bp (H.size bp) = H.ptr p then
    { H with
      size := update H.size bp ((H.size bp + H.size (H.ptr p)) % 2 ^ 32)
      ptr := update H.ptr bp (H.ptr (H.ptr p)) }
  else { H with ptr := update H.ptr bp (H.ptr p) }

/-- `bp` is joined to the block below it, or is pointed to by it. -/
def joinLower (H : Heap) (bp p : ℕ) : Heap :=
  if plus p (H.size p) = bp then
    { H with
      size := update H.size p ((H.size p + H.size bp) % 2 ^ 32)
      ptr := update H.ptr p (H.ptr bp) }
  else { H with ptr := update H.ptr p bp }

/-- `free`, with at most `n` rounds of its loop. -/
def free (H : Heap) (n ap : ℕ) : Option Heap :=
  (follow H.ptr (H.slot (header ap)) n H.freep).map fun p =>
    { (H.joinUpper (header ap) p).joinLower (header ap) p with freep := p }

/-! ## malloc -/

/-- The list is set up by the first call. -/
def start (H : Heap) (base : ℕ) : Heap :=
  if H.freep = 0 then
    { ptr := update H.ptr base base, size := update H.size base 0, freep := base }
  else H

/-- The loop of `malloc` is left, or asks for more memory; `p` is `prevp->s.ptr` in it. -/
def found (H : Heap) (nunits prevp : ℕ) : Bool :=
  nunits ≤ H.size (H.ptr prevp) || H.ptr prevp = H.freep

/-- The block after `prevp` is taken, or the end of it. -/
def take (H : Heap) (nunits prevp : ℕ) : Heap × ℕ :=
  let p := H.ptr prevp
  if H.size p = nunits then
    ({ H with ptr := update H.ptr prevp (H.ptr p), freep := prevp }, plus p 1)
  else
    let rest := H.size p - nunits
    ({ H with
       size := update (update H.size p rest) (plus p rest) nunits
       freep := prevp }, plus (plus p rest) 1)

end Heap

def nunits (nbytes : ℕ) : ℕ := (nbytes + 7) % 2 ^ 32 / 8 + 1

/-- How many units `morecore` asks for. -/
def moreUnits (nunits : ℕ) : ℕ := if nunits < 4096 then 4096 else nunits

/-- The argument of `sbrk` -/
def moreBytes (nunits : ℕ) : ℕ := moreUnits nunits * 8 % 2 ^ 32

/-! ## The machine -/

/-- A pointer that `malloc` has returned. -/
structure Live where
  ap : ℕ
  nbytes : ℕ
  deriving DecidableEq

structure State where
  heap : Heap
  /-- The argument of the call of `malloc` that waits for `sbrk`. -/
  waiting : Option ℕ
  live : List Live
  ranges : List Span

inductive Act where
  | malloc (nbytes : ℕ)
  /-- `sbrk` returns; `none` is -1. -/
  | sbrk (p : Option ℕ)
  | free (ap : ℕ)
  | store (ptr size : ℕ → ℕ)

/-- A loop does not end. -/
inductive Fault where
  | hangs
  deriving DecidableEq

namespace State

/-- How many headers there can be, and one more. -/
def rounds (S : State) : ℕ := 2 + (S.ranges.map Span.len).sum / 8

/-- `malloc` from its loop on. -/
def mallocLoop (S : State) (nbytes : ℕ) : Except Fault State :=
  match follow S.heap.ptr (S.heap.found (nunits nbytes)) S.rounds S.heap.freep with
  | none => .error .hangs
  | some prevp =>
    if nunits nbytes ≤ S.heap.size (S.heap.ptr prevp) then
      let x := S.heap.take (nunits nbytes) prevp
      .ok { S with heap := x.1, live := ⟨x.2, nbytes⟩ :: S.live, waiting := none }
    else .ok { S with waiting := some nbytes }

def free (S : State) (ap : ℕ) : Except Fault State :=
  match S.heap.free S.rounds ap with
  | none => .error .hangs
  | some H => .ok { S with heap := H }

/-- `nu` units of memory are at `p`. -/
def gain (S : State) (p nu bytes : ℕ) : State :=
  { S with
    heap := { S.heap with size := update S.heap.size p nu }
    ranges := ⟨p, bytes⟩ :: S.ranges }

/-- `morecore`, once it has the memory at `p`. -/
def morecore (S : State) (nunits p : ℕ) : Except Fault State :=
  (S.gain p (moreUnits nunits) (moreBytes nunits)).free (plus p 1)

end State

/-- One step. -/
def step (base : ℕ) : StepFn State Act Fault
  | S, .malloc nbytes =>
    if S.waiting = none then some ({ S with heap := S.heap.start base }.mallocLoop nbytes)
    else none
  | S, .sbrk p =>
    match S.waiting, p with
    | none, _ => none
    | some _, none => some (.ok { S with waiting := none })
    | some nbytes, some p =>
      -- `malloc` goes on from `freep`
      match S.morecore (nunits nbytes) p with
      | .error e => some (.error e)
      | .ok S => some (S.mallocLoop nbytes)
  | S, .free ap =>
    if S.waiting = none then
      match S.free ap with
      | .error e => some (.error e)
      | .ok S => some (.ok { S with live := S.live.eraseP fun l => l.ap = ap })
    else none
  | S, .store ptr size =>
    if S.waiting = none then some (.ok { S with heap := { S.heap with ptr := ptr, size := size } })
    else none

/-- The bytes of a block that its owner may use. -/
def State.usable (S : State) (l : Live) : Span := ⟨l.ap, 8 * S.heap.size (header l.ap) - 8⟩

/-- What is asked of the program and of `sbrk`. -/
def Allowed (base : ℕ) (S : State) : Act → Prop
  | .malloc nbytes => (nbytes + 7) / 8 * 8 < 2 ^ 31
  | .sbrk none => True
  | .sbrk (some p) =>
    -- the memory is above all that there is
    base + 8 ≤ p ∧ (∀ r ∈ S.ranges, r.lo + r.len ≤ p) ∧
      ∀ nbytes, S.waiting = some nbytes → p + moreBytes (nunits nbytes) < 2 ^ 32
  | .free ap => ∃ l ∈ S.live, l.ap = ap
  | .store ptr size =>
    -- a header no byte of which is the program's stays what it is
    ∀ a, (∀ l ∈ S.live, ∀ x, a ≤ x → x < a + 8 → x ∉ (S.usable l).bytes) →
      ptr a = S.heap.ptr a ∧ size a = S.heap.size a

/-- Before the first call. -/
structure Untouched (S : State) : Prop where
  freep : S.heap.freep = 0
  waiting : S.waiting = none
  live : S.live = []
  ranges : S.ranges = []

end Xv6.Umalloc
