import Xv6.Lib.Ring
import Xv6.Lib.Transition

/-!
# The console

The line discipline of `console.c` as a machine.  What is typed goes into a buffer of
`INPUT_BUF` bytes with three counters: `input.r` counts what has been read, `input.w` what may
be read, and `input.e` what has been typed and not been erased.  `consoleintr` moves `e` and
`w`, `consoleread` moves `r`, and both hold `input.lock` while they do, except that a reader
that finds nothing to read sleeps without it.  So a character that is typed is one step, and so
is a stretch of `consoleread` from its beginning, or from where it slept, to where it sleeps or
returns.  `kill` is a step of its own.

Any number of processes read.  Whatever a call has stored at `dst` is kept in the state, and so
are the results of all calls that have returned; `delivered` lists the bytes that have been
taken out of the buffer, in the order in which they were.
-/

namespace Xv6.Console

open Function Transition

def inputBuf : ℕ := 128

instance : NeZero inputBuf := ⟨by decide⟩

/-! ## Characters -/

/-- `C('D')` -/
def ctrlD : UInt8 := 0x04
/-- `C('H')` -/
def ctrlH : UInt8 := 0x08
/-- `C('P')` -/
def ctrlP : UInt8 := 0x10
/-- `C('U')` -/
def ctrlU : UInt8 := 0x15
/-- `'\x7f'` -/
def del : UInt8 := 0x7f
/-- `'\n'` -/
def newline : UInt8 := 0x0a
/-- `'\r'` -/
def carriageReturn : UInt8 := 0x0d

/-! ## Typing -/

/-- `input`, less its lock: `nread` is `input.r` and `nwrite` is `input.e`. -/
structure Input extends Ring inputBuf UInt8 where
  w : UInt32

namespace Input

/-- `input.e--` -/
def erase (s : Input) : Input := { s with toRing := s.unpush }

/-- The loop of `^U`, with at most `k` rounds to go. -/
def killLine : ℕ → Input → Input
  | 0, s => s
  | k + 1, s => if s.nwrite ≠ s.w ∧ s.back ≠ newline then killLine k s.erase else s

/-- The text may be read up to where it has been typed. -/
def commit (s : Input) : Input := { s with w := s.nwrite }

/-- `input.buf[input.e++ % INPUT_BUF] = c`, and what follows. -/
def store (s : Input) (c : UInt8) : Input × Bool :=
  let s : Input := { s with toRing := s.push c }
  if c = newline ∨ c = ctrlD ∨ s.isFull then (s.commit, true) else (s, false)

/-- `consoleintr` for one character, and whether it calls `wakeup(&input.r)`. -/
def consoleintr (s : Input) (c : UInt8) : Input × Bool :=
  if c = ctrlP then (s, false)
  else if c = ctrlU then
    -- every round takes `e` closer to `w`
    (killLine (s.nwrite - s.w).toNat s, false)
  else if c = ctrlH ∨ c = del then (if s.nwrite ≠ s.w then s.erase else s, false)
  else if c ≠ 0 ∧ s.nwrite - s.nread < UInt32.ofNat inputBuf then
    s.store (if c = carriageReturn then newline else c)
  else (s, false)

end Input

/-! ## Reading -/

/-- How a stretch of `consoleread` ends. -/
inductive Ending where
  /-- The loop is left, when `n` bytes are still missing. -/
  | returns (n : ℕ)
  /-- The process has been killed. -/
  | killed
  /-- There is nothing to read, and `n` bytes are missing. -/
  | sleeps (n : ℕ)
  deriving DecidableEq

/-- The loop of `consoleread` when `n` bytes are missing: the bytes stored, and how it ends. -/
def Input.readLoop (killed : Bool) (target : ℕ) : ℕ → Input → Input × List UInt8 × Ending
  | 0, s => (s, [], .returns 0)
  | n + 1, s =>
    if s.nread = s.w then (s, [], if killed then .killed else .sleeps (n + 1))
    else
      let c := s.front
      let s : Input := { s with toRing := s.pop }
      if c = ctrlD then
        -- `input.r--` saves it for next time
        (if n + 1 < target then { s with nread := s.nread - 1 } else s, [], .returns (n + 1))
      else if c = newline then (s, [c], .returns n)
      else
        let x := Input.readLoop killed target n s
        (x.1, c :: x.2.1, x.2.2)

/-- A call of `consoleread` that sleeps. -/
structure Call where
  target : ℕ
  /-- How many bytes are missing. -/
  n : ℕ
  dst : List UInt8
  awake : Bool

/-- What a call of `consoleread` has stored and returned. -/
structure Result (C : Type) where
  caller : C
  value : ℤ
  bytes : List UInt8

/-- Those who read from the console. -/
structure Readers (C : Type) where
  /-- The call of each of them, if it sleeps in one. -/
  call : C → Option Call
  killed : C → Bool
  /-- The calls that have returned, in order. -/
  results : List (Result C)
  /-- The bytes that have been taken out of the buffer, and by whom. -/
  delivered : List (C × UInt8)

namespace Readers

variable {C : Type} [DecidableEq C]

/-- `wakeup(&input.r)` -/
def wakeup (R : Readers C) : Readers C :=
  { R with call := fun k => (R.call k).map fun c => { c with awake := true } }

/-- What `kill` does to a reader. -/
def kill (R : Readers C) (k : C) : Readers C :=
  { R with
    call := update R.call k ((R.call k).map fun c => { c with awake := true })
    killed := update R.killed k true }

/-- Reader `k`, which had stored `dst`, has stored `got`, and its stretch has ended. -/
def turn (R : Readers C) (k : C) (target : ℕ) (dst got : List UInt8) (e : Ending) : Readers C :=
  let R := { R with delivered := R.delivered ++ got.map fun b => (k, b) }
  match e with
  | .returns n =>
    { R with
      call := update R.call k none
      results := R.results ++ [⟨k, target - n, dst ++ got⟩] }
  | .killed =>
    { R with
      call := update R.call k none
      results := R.results ++ [⟨k, -1, dst ++ got⟩] }
  | .sleeps n =>
    { R with call := update R.call k (some ⟨target, n, dst ++ got, false⟩) }

end Readers

/-- The console and its readers. -/
structure State (C : Type) where
  input : Input
  readers : Readers C

/-- The steps. -/
inductive Act (C : Type) where
  | key (c : UInt8)
  /-- Process `k` calls `consoleread(ip, dst, n)`. -/
  | read (k : C) (n : ℤ)
  /-- Process `k` comes back from `sleep`. -/
  | resume (k : C)
  | kill (k : C)

variable {C : Type} [DecidableEq C]

/-- A stretch of `consoleread`. -/
def State.consoleread (S : State C) (k : C) (target n : ℕ) (dst : List UInt8) : State C :=
  let x := S.input.readLoop (S.readers.killed k) target n
  { input := x.1, readers := S.readers.turn k target dst x.2.1 x.2.2 }

/-- One step. -/
def step : StepFn (State C) (Act C) Empty
  | S, .key c =>
    let x := S.input.consoleintr c
    some (.ok { input := x.1, readers := if x.2 then S.readers.wakeup else S.readers })
  | S, .read k n =>
    match S.readers.call k with
    | none => some (.ok (S.consoleread k n.toNat n.toNat []))
    | some _ => none
  | S, .resume k =>
    match S.readers.call k with
    | none => none
    | some c => if c.awake then some (.ok (S.consoleread k c.target c.n c.dst)) else none
  | S, .kill k => some (.ok { S with readers := S.readers.kill k })

/-- Nothing has been typed or read; the counters may be anything. -/
structure Idle (S : State C) : Prop where
  w : S.input.w = S.input.nread
  e : S.input.nwrite = S.input.nread
  call : ∀ k, S.readers.call k = none
  results : S.readers.results = []
  delivered : S.readers.delivered = []

end Xv6.Console
