import Xv6.Log.Basic
import Mathlib.Logic.Function.Basic
import Mathlib.Order.Defs.LinearOrder

/-!
# `commit()` and `recover_from_log()` between crashes

A commit writes the disk one sector at a time: the logged blocks into the log region,
the header, the blocks to their homes, the empty header.  A crash keeps what has
reached the disk and loses everything else, and the recovery that runs afterwards can
be cut short in the same way.

The machine of this file is a disk, the valid buffers of the cache in front of it, the
in-memory log, and `trace`, which records the whole disk after each single-sector
write.  The functions are those of `log.c` and `bio.c`, loop for loop; a crash point of
a call is a disk in the trace it leaves, or the disk it started from.

## Why three kinds of disk are enough

Fix the group of sectors that is being committed, the disk `old` before the commit and
the contents `new` that the buffers hold.  Every disk that the commit, or any number of
interrupted recoveries after it, can leave is of one of three kinds:

* `Before` --- the header is empty and every home sector is old;
* `During` --- the header lists the group, the log blocks hold the new contents, and
  each home sector is old or new;
* `After` --- the header is empty and every home sector is new.

`write_log` stays `Before`, the header write goes to `During`, `install_trans` stays
there, and erasing the header goes to `After`.  Recovery keeps `Before` and `After`, and
takes `During` to `After`.  That is `kind_of_commit`, `kind_of_recover` and
`recover_completes`.
-/

namespace Xv6

open Function

/-- A valid buffer of the cache. -/
structure Buf where
  data : Block
  /-- `B_DIRTY`: pinned until the commit writes it. -/
  dirty : Bool

/-- A machine with one disk, its buffer cache and its log. -/
structure Machine where
  disk : Disk
  /-- The valid buffer of a sector, if the cache has one. -/
  cache : ℕ → Option Buf
  log : Log
  /-- The disks after each single-sector write, the latest first. -/
  trace : List Disk

namespace Machine

/-! ## Buffers -/

/-- The contents of the buffer that `bread` returns for sector `s`. -/
def data (m : Machine) (s : ℕ) : Block :=
  match m.cache s with
  | some b => b.data
  | none => m.disk s

/-- `bread`: the sector is in the cache afterwards, read from the disk if need be. -/
def bread (m : Machine) (s : ℕ) : Machine :=
  match m.cache s with
  | some _ => m
  | none => { m with cache := update m.cache s (some ⟨m.disk s, false⟩) }

/-- `bwrite` of the buffer of sector `s`, whose contents are `d`: one single-sector
write, after which the buffer is clean. -/
def bwrite (m : Machine) (s : ℕ) (d : Block) : Machine :=
  { m with
    disk := update m.disk s d
    cache := update m.cache s (some ⟨d, false⟩)
    trace := update m.disk s d :: m.trace }

@[simp] theorem bread_disk (m : Machine) (s : ℕ) : (m.bread s).disk = m.disk := by
  unfold bread; split <;> rfl

@[simp] theorem bread_log (m : Machine) (s : ℕ) : (m.bread s).log = m.log := by
  unfold bread; split <;> rfl

@[simp] theorem bread_trace (m : Machine) (s : ℕ) : (m.bread s).trace = m.trace := by
  unfold bread; split <;> rfl

@[simp] theorem bread_data (m : Machine) (s : ℕ) : (m.bread s).data = m.data := by
  funext t
  unfold bread
  split
  · rfl
  · rename_i hs
    by_cases h : t = s
    · subst h
      simp only [data, update_self, hs]
    · simp only [data, update_of_ne h]

@[simp] theorem bwrite_disk (m : Machine) (s : ℕ) (d : Block) :
    (m.bwrite s d).disk = update m.disk s d := rfl

@[simp] theorem bwrite_log (m : Machine) (s : ℕ) (d : Block) : (m.bwrite s d).log = m.log := rfl

@[simp] theorem bwrite_trace (m : Machine) (s : ℕ) (d : Block) :
    (m.bwrite s d).trace = update m.disk s d :: m.trace := rfl

@[simp] theorem bwrite_data (m : Machine) (s : ℕ) (d : Block) :
    (m.bwrite s d).data = update m.data s d := by
  funext t
  by_cases h : t = s
  · subst h
    simp only [data, bwrite, update_self]
  · simp only [data, bwrite, update_of_ne h]

/-! ## The functions of `log.c` -/

/-- One round of the loop of `write_log`: copy the cached block to its log block. -/
def writeLogStep (m : Machine) (tail : ℕ) (s : UInt32) : Machine :=
  let m := m.bread (m.log.start + tail + 1)
  let m := m.bread s.toNat
  m.bwrite (m.log.start + tail + 1) (m.data s.toNat)

/-- The loop of `write_log`, from `tail` on. -/
def writeLogFrom (m : Machine) (tail : ℕ) : List UInt32 → Machine
  | [] => m
  | s :: rest => writeLogFrom (m.writeLogStep tail s) (tail + 1) rest

/-- `write_log`: copy modified blocks from the cache to the log. -/
def writeLog (m : Machine) : Machine := m.writeLogFrom 0 m.log.lh

/-- `write_head`: write the in-memory header to disk. -/
def writeHead (m : Machine) : Machine :=
  let m := m.bread m.log.start
  m.bwrite m.log.start (putHeader (m.data m.log.start) m.log.lh)

/-- One round of the loop of `install_trans`: copy a log block to its home. -/
def installStep (m : Machine) (tail : ℕ) (s : UInt32) : Machine :=
  let m := m.bread (m.log.start + tail + 1)
  let m := m.bread s.toNat
  m.bwrite s.toNat (m.data (m.log.start + tail + 1))

/-- The loop of `install_trans`, from `tail` on. -/
def installFrom (m : Machine) (tail : ℕ) : List UInt32 → Machine
  | [] => m
  | s :: rest => installFrom (m.installStep tail s) (tail + 1) rest

/-- `install_trans`: copy committed blocks from the log to their home location. -/
def installTrans (m : Machine) : Machine := m.installFrom 0 m.log.lh

/-- `log.lh.n = 0` -/
def clearHead (m : Machine) : Machine := { m with log := { m.log with lh := [] } }

def commit (m : Machine) : Machine :=
  if 0 < m.log.lh.length then
    m.writeLog.writeHead.installTrans.clearHead.writeHead
  else m

/-- What happens to the cache while a group is formed. -/
inductive BufOp where
  /-- `bread` and `brelse` of a sector. -/
  | read (s : UInt32)
  /-- `bget` recycles the buffer of a sector. -/
  | recycle (s : UInt32)
  /-- The tests of a call of `log_write`. -/
  | test
  /-- The locked half of a call of `log_write`, for the buffer of sector `s`, which its
  holder has filled with `d`. -/
  | append (s : UInt32) (d : Block)

/-- `bget` takes over the buffer of sector `s`, which it does only if it is clean. -/
def recycle (m : Machine) (s : ℕ) : Machine :=
  match m.cache s with
  | some b => if b.dirty then m else { m with cache := update m.cache s none }
  | none => m

/-- `log_write` up to `acquire(&log.lock)`. -/
def logTest (m : Machine) : Except LogPanic Machine :=
  if m.log.tooBig then .error .tooBig
  else if m.log.outstanding < 1 then .error .outsideTrans
  else .ok m

/-- `log_write` from `acquire(&log.lock)` on: the sector is recorded, its buffer pinned. -/
def logAppend (m : Machine) (s : UInt32) (d : Block) : Machine :=
  { m with
    cache := update m.cache s.toNat (some ⟨d, true⟩)
    log := m.log.record s }

/-- One of the things that can happen while a group is formed. -/
def bufOp (m : Machine) : BufOp → Except LogPanic Machine
  | .read s => .ok (m.bread s.toNat)
  | .recycle s => .ok (m.recycle s.toNat)
  | .test => m.logTest
  | .append s d => .ok ((m.bread s.toNat).logAppend s d)

/-- The calls of a whole group, in the order in which they reach the log. -/
def bufOps (m : Machine) : List BufOp → Except LogPanic Machine
  | [] => .ok m
  | op :: ops => do (← m.bufOp op).bufOps ops

/-- The call logs a sector outside the log region. -/
def BufOp.Home (l : Log) : BufOp → Prop
  | .append s _ => ¬ l.InRegion s.toNat
  | _ => True

/-- The disk contents that the calls ask for: each logged block over what was there. -/
def written (d : Disk) : List BufOp → Disk
  | [] => d
  | .append s b :: ops => written (update d s.toNat b) ops
  | _ :: ops => written d ops

/-- No group is open: nothing is logged, every buffer holds what the disk holds, and
the header on disk says `n = 0`. -/
structure Clean (m : Machine) : Prop where
  lh_nil : m.log.lh = []
  cache_clean : ∀ s b, m.cache s = some b → b.dirty = false ∧ b.data = m.disk s
  header : headerN (m.disk m.log.start) = 0

/-! ## Crashes -/

/-- The machine after a reboot: an empty cache, and the log where `initlog` finds it. -/
def boot (l : Log) (d : Disk) : Machine :=
  { disk := d
    cache := fun _ => none
    log := { start := l.start, size := l.size, outstanding := 0, committing := false, lh := [] }
    trace := [] }

end Machine
end Xv6
