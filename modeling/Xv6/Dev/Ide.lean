import Mathlib.Data.Fintype.Card
import Xv6.Lib.Transition

/-!
# The disk driver

`ide.c`: the buffers that wait for the disk are in a list, linked by `qnext`, and the command that the
device has is for the first of them.  `iderw` appends a buffer, starts the device if the buffer is the
first, and sleeps until the flags say that it has been served; `ideintr` takes the first buffer off the
list and starts the device for the next.  Both hold `idelock`, so each is one step, up to the `sleep`.

The device carries out one command at a time; when it has, it raises one interrupt and has the sector's
contents for the handler to read.  While a caller is in `iderw` it has the buffer to itself; at all other
times whoever has it may change it.

Not in the source: `arrived`, which has the requests in the order in which they came, as they were then,
`served`, which has those that `ideintr` has taken off, and the number of each caller's request.

* `append_chain` --- the loop of `iderw` finds the end of the list.
-/

namespace Xv6.Ide

open Function List Transition Option

variable {n : ℕ} {A D : Type}

/-- `struct buf`, as far as the driver goes; `B_BUSY` is set for whoever calls. -/
structure Buf (A D : Type) where
  valid : Bool
  dirty : Bool
  /-- `dev` and `sector` -/
  addr : A
  data : D

/-- `(b->flags & (B_VALID|B_DIRTY)) == B_VALID` -/
def Buf.ready (b : Buf A D) : Bool := b.valid && !b.dirty

/-- A command of the device. -/
inductive Cmd (A D : Type) where
  | read (a : A)
  | write (a : A) (d : D)

/-- What `idestart` tells the device to do. -/
def Buf.cmd (b : Buf A D) : Cmd A D := if b.dirty then .write b.addr b.data else .read b.addr

structure State (n : ℕ) (A D : Type) where
  buf : Fin n → Buf A D
  qnext : Fin n → Option (Fin n)
  idequeue : Option (Fin n)
  /-- The command that was started, and the contents of the sector when it has been carried out. -/
  device : Option (Cmd A D × Option D)
  disk : A → D
  /-- The callers that are in `iderw`. -/
  waiting : Fin n → Option ℕ
  arrived : List (Fin n × Cmd A D)
  served : List (Fin n × Cmd A D × D)

/-- The sector that the command is about. -/
def Cmd.addr : Cmd A D → A
  | .read a | .write a _ => a

inductive Act (n : ℕ) (A D : Type) where
  | iderw (b : Fin n)
  /-- The device carries out its command. -/
  | complete
  | ideintr
  | resume (b : Fin n)
  /-- Whoever has a buffer changes it. -/
  | change (b : Fin n) (x : Buf A D)

inductive Panic where
  /-- `"iderw: nothing to do"` -/
  | nothingToDo
  /-- The loop of `iderw` does not end. -/
  | loops

/-- The last buffer from `x` on. -/
def lastFrom (qnext : Fin n → Option (Fin n)) : ℕ → Fin n → Option (Fin n)
  | 0, _ => none
  | fuel + 1, x =>
    match qnext x with
    | none => some x
    | some y => lastFrom qnext fuel y

/-- `b->qnext = 0`, and the loop: where the list starts, and the links. -/
def append (qnext : Fin n → Option (Fin n)) (idequeue : Option (Fin n)) (b : Fin n) :
    Option (Option (Fin n) × (Fin n → Option (Fin n))) :=
  let qnext := update qnext b none
  match idequeue with
  | none => some (some b, qnext)
  | some x => (lastFrom qnext n x).map fun y => (some x, update qnext y (some b))

variable [DecidableEq A]

/-- One step. -/
def step : StepFn (State n A D) (Act n A D) Panic
  | S, .iderw b =>
    if S.waiting b ≠ none then none
    else if (S.buf b).ready then some (.error .nothingToDo)
    else
      match append S.qnext S.idequeue b with
      | none => some (.error .loops)
      | some (head, qnext) =>
        some (.ok
          { S with
            qnext := qnext
            idequeue := head
            device := if head = some b then some ((S.buf b).cmd, none) else S.device
            waiting := update S.waiting b (some S.arrived.length)
            arrived := S.arrived ++ [(b, (S.buf b).cmd)] })
  | S, .complete =>
    match S.device with
    | some (.read a, none) => some (.ok { S with device := some (.read a, some (S.disk a)) })
    | some (.write a d, none) =>
      some (.ok { S with device := some (.write a d, some d), disk := update S.disk a d })
    | _ => none
  | S, .ideintr =>
    match S.device with
    | some (cmd, some d) =>
      match S.idequeue with
      | none => some (.ok { S with device := none })
      | some b =>
        let x := S.buf b
        some (.ok
          { S with
            idequeue := S.qnext b
            buf := update S.buf b
              { x with valid := true, dirty := false, data := if x.dirty then x.data else d }
            device := (S.qnext b).map fun y => ((S.buf y).cmd, none)
            served := S.served ++ [(b, cmd, d)] })
    | _ => none
  | S, .resume b =>
    if S.waiting b = none then none
    else if (S.buf b).ready then some (.ok { S with waiting := update S.waiting b none })
    else some (.ok S)
  | S, .change b x =>
    if S.waiting b = none then some (.ok { S with buf := update S.buf b x }) else none

/-- Nobody has called `iderw`. -/
structure Start (S : State n A D) : Prop where
  idequeue : S.idequeue = none
  device : S.device = none
  waiting : ∀ b, S.waiting b = none
  arrived : S.arrived = []
  served : S.served = []

/-! ## The list -/

/-- The links lead from `x` through `q` to the end. -/
def Chain (qnext : Fin n → Option (Fin n)) : Option (Fin n) → List (Fin n) → Prop
  | x, [] => x = none
  | x, b :: q => x = some b ∧ Chain qnext (qnext b) q

section Chain

variable {qnext qnext' : Fin n → Option (Fin n)} {x : Option (Fin n)} {q : List (Fin n)} {b : Fin n}

theorem Chain.congr (h : Chain qnext x q) (hq : ∀ b ∈ q, qnext' b = qnext b) : Chain qnext' x q := by
  induction q generalizing x with
  | nil => exact h
  | cons a q ih =>
    refine ⟨h.1, ?_⟩
    rw [hq a mem_cons_self]
    exact ih h.2 fun b hb => hq b (mem_cons_of_mem a hb)

theorem Chain.head (h : Chain qnext x q) : x = q.head? := by
  cases q with
  | nil => exact h
  | cons a q => exact h.1

theorem lastFrom_chain {a : Fin n} (h : Chain qnext (some a) q) (hn : q.Nodup) (hb : b ∉ q)
    (hend : qnext b = none) {fuel : ℕ} (hfuel : q.length ≤ fuel) :
    ∃ y, lastFrom qnext fuel a = some y ∧ Chain (update qnext y (some b)) (some a) (q ++ [b]) ∧
      y ∈ q := by
  induction q generalizing a fuel with
  | nil => cases h
  | cons a' q ih =>
    obtain ⟨rfl, h⟩ := (⟨some.inj h.1, h.2⟩ : a = a' ∧ _)
    obtain ⟨fuel, rfl⟩ := Nat.exists_eq_add_one_of_ne_zero (Nat.ne_of_gt (lt_of_lt_of_le (by simp) hfuel))
    have hba : b ≠ a := fun he => hb (he ▸ mem_cons_self)
    cases q with
    | nil =>
      refine ⟨a, by rw [lastFrom, show qnext a = none from h], ⟨rfl, ?_⟩, mem_cons_self⟩
      simp [Chain, hba, hend]
    | cons a₂ q =>
      obtain ⟨y, hy, hchain, hmem⟩ := ih (h.1 ▸ h) (nodup_cons.mp hn).2
        (fun hm => hb (mem_cons_of_mem a hm)) (Nat.le_of_succ_le_succ hfuel)
      have hya : a ≠ y := fun he => (nodup_cons.mp hn).1 (he ▸ hmem)
      refine ⟨y, by rw [lastFrom, h.1]; exact hy, ⟨rfl, ?_⟩, mem_cons_of_mem a hmem⟩
      rw [update_of_ne hya, h.1]
      exact hchain

theorem append_chain (h : Chain qnext x q) (hn : q.Nodup) (hb : b ∉ q) :
    ∃ head qnext', append qnext x b = some (head, qnext') ∧ Chain qnext' head (q ++ [b]) ∧
      (head = some b ↔ q = []) := by
  have hne : ∀ a ∈ q, a ≠ b := fun a ha he => hb (he ▸ ha)
  have h' : Chain (update qnext b none) x q := h.congr fun a ha => update_of_ne (hne a ha) ..
  cases q with
  | nil =>
    obtain rfl : x = none := h
    exact ⟨_, _, rfl, by simp [Chain], by simp⟩
  | cons a q =>
    obtain rfl : x = some a := h.1
    have hfuel : (a :: q).length ≤ n := by simpa using hn.length_le_card
    obtain ⟨y, hy, hchain, -⟩ := lastFrom_chain h' hn hb (update_self ..) hfuel
    refine ⟨some a, _, by simp only [append, hy, map_some], hchain, ?_⟩
    simp only [some.injEq, cons_ne_nil, iff_false]
    rintro rfl
    exact hb mem_cons_self

end Chain

/-! ## The invariant -/

/-- What the device has is the command `cmd`; when it has been carried out, the contents `d` of the
sector are those on the disk, and what was to be written. -/
structure Carried (disk : A → D) (cmd : Cmd A D) (v : Option D) : Prop where
  disk : ∀ d, v = some d → disk cmd.addr = d
  written : ∀ a e d, cmd = .write a e → v = some d → d = e

/-- A request in the form in which it arrived. -/
def State.request (S : State n A D) (b : Fin n) : Fin n × Cmd A D := (b, (S.buf b).cmd)

structure Inv (S : State n A D) (q : List (Fin n)) : Prop where
  chain : Chain S.qnext S.idequeue q
  nodup : q.Nodup
  order : S.arrived = S.served.map (fun r => (r.1, r.2.1)) ++ q.map S.request
  pending : ∀ b ∈ q, S.waiting b ≠ none ∧ (S.buf b).ready = false
  device : S.device.map Prod.fst = q.head?.map fun b => (S.buf b).cmd
  carried : ∀ cmd v, S.device = some (cmd, v) → Carried S.disk cmd v
  ticket : ∀ b t, S.waiting b = some t → (∃ i, q[i]? = some b ∧ t = S.served.length + i) ∨
    ∃ cmd, S.served[t]? = some (b, cmd, (S.buf b).data) ∧ (S.buf b).ready = true

section Inv

variable {S S' : State n A D} {q : List (Fin n)} {b : Fin n}

omit [DecidableEq A] in
theorem map_request (h : ∀ a ∈ q, S'.buf a = S.buf a) : q.map S'.request = q.map S.request :=
  map_congr_left fun a ha => by rw [State.request, State.request, h a ha]

omit [DecidableEq A] in
theorem head_cmd (h : ∀ a ∈ q, S'.buf a = S.buf a) :
    (q.head?.map fun b => (S'.buf b).cmd) = q.head?.map fun b => (S.buf b).cmd :=
  Option.map_congr fun a ha => by rw [h a (mem_of_mem_head? ha)]

omit [DecidableEq A] in
theorem carried_started (disk : A → D) (cmd : Cmd A D) : Carried disk cmd none where
  disk _ h := by cases h
  written _ _ _ _ h := by cases h

omit [DecidableEq A] in
theorem Start.inv (h : Start S) : Inv S [] where
  chain := h.idequeue
  nodup := nodup_nil
  order := by rw [h.arrived, h.served]; rfl
  pending _ hb := by cases hb
  device := by rw [h.device]; rfl
  carried _ _ hd := by cases h.device.symm.trans hd
  ticket b _ hw := by cases (h.waiting b).symm.trans hw

variable {r : Except Panic (State n A D)}

theorem Inv.iderw (h : Inv S q) (hs : step S (.iderw b) = some r) :
    r = .error .nothingToDo ∨ ∃ S', r = .ok S' ∧ Inv S' (q ++ [b]) := by
  simp only [step] at hs
  split_ifs at hs with hw hready
  · exact .inl (some.inj hs).symm
  · have hidle : S.waiting b = none := Decidable.not_not.mp hw
    have hb : b ∉ q := fun hb => (h.pending b hb).1 hidle
    obtain ⟨head, qnext, happ, hchain, hhead⟩ := append_chain h.chain h.nodup hb
    rw [happ] at hs
    obtain rfl := some.inj hs
    refine .inr ⟨_, rfl, hchain, ?_, ?_, fun a ha => ?_, ?_, fun cmd v hd => ?_, fun a t hwait => ?_⟩
    · exact concat_eq_append ▸ h.nodup.concat hb
    · rw [h.order, map_append, append_assoc]
      rfl
    · by_cases hab : a = b
      · exact ⟨by simp [hab], by simpa [hab] using hready⟩
      · obtain ha | ha := mem_append.mp ha
        · simpa [hab] using h.pending a ha
        · exact absurd (mem_singleton.mp ha) hab
    · dsimp only
      split_ifs with hhead'
      · simp [hhead.mp hhead']
      · rw [h.device]
        cases q with
        | nil => exact absurd (hhead.mpr rfl) hhead'
        | cons a q => rfl
    · dsimp only at hd
      split_ifs at hd
      · cases hd
        exact carried_started ..
      · exact h.carried cmd v hd
    · dsimp only at hwait ⊢
      by_cases hab : a = b
      · rw [hab, update_self] at hwait
        refine .inl ⟨q.length, by simp [hab], ?_⟩
        rw [← some.inj hwait, h.order]
        simp
      · rw [update_of_ne hab] at hwait
        refine (h.ticket a t hwait).imp_left ?_
        rintro ⟨i, hi, rfl⟩
        exact ⟨i, by rw [getElem?_append_left (List.getElem?_eq_some_iff.mp hi).1, hi], rfl⟩

theorem Inv.complete (h : Inv S q) (hs : step S .complete = some r) :
    ∃ S', r = .ok S' ∧ Inv S' q := by
  have hdev := h.device
  simp only [step] at hs
  split at hs
  · rename_i a hd
    obtain rfl := some.inj hs
    rw [hd] at hdev
    refine ⟨_, rfl, h.chain, h.nodup, h.order, h.pending, hdev, fun cmd v hd => ?_, h.ticket⟩
    cases hd
    exact ⟨fun d hd => some.inj hd, fun _ _ _ he => by cases he⟩
  · rename_i a e hd
    obtain rfl := some.inj hs
    rw [hd] at hdev
    refine ⟨_, rfl, h.chain, h.nodup, h.order, h.pending, hdev, fun cmd v hd => ?_, h.ticket⟩
    cases hd
    refine ⟨fun d hd => ?_, fun a' e' d he hd => ?_⟩
    · rw [← some.inj hd]
      exact update_self ..
    · cases he
      exact (some.inj hd).symm
  · cases hs

theorem Inv.ideintr (h : Inv S q) (hs : step S .ideintr = some r) :
    ∃ S', r = .ok S' ∧ Inv S' q.tail := by
  have hdev := h.device
  simp only [step] at hs
  split at hs
  · rename_i cmd d hd
    rw [hd] at hdev
    cases q with
    | nil => cases hdev
    | cons b q =>
      obtain ⟨hhead, hchain⟩ := h.chain
      obtain ⟨hbq, hn⟩ := nodup_cons.mp h.nodup
      obtain rfl : cmd = (S.buf b).cmd := some.inj hdev
      rw [hhead] at hs
      obtain rfl := some.inj hs
      -- what a write leaves in the buffer is what was written
      have hdata : (if (S.buf b).dirty then (S.buf b).data else d) = d := by
        split_ifs with hdirty
        · exact ((h.carried _ _ hd).written _ _ d (if_pos hdirty) rfl).symm
        · rfl
      have hother : ∀ a ∈ q, a ≠ b := fun a ha he => hbq (he ▸ ha)
      have hsame : ∀ a ∈ q, update S.buf b { S.buf b with
          valid := true, dirty := false, data := if (S.buf b).dirty then (S.buf b).data else d } a =
          S.buf a := fun a ha => update_of_ne (hother a ha) ..
      refine ⟨_, rfl, hchain, hn, ?_, fun a ha => ?_, ?_, fun cmd v hd => ?_, fun a t hw => ?_⟩
      · rw [h.order, map_append, append_assoc]
        exact congrArg (_ ++ ·) (congrArg (S.request b :: ·) (map_request hsame).symm)
      · refine ⟨(h.pending a (mem_cons_of_mem b ha)).1, ?_⟩
        dsimp only
        rw [hsame a ha]
        exact (h.pending a (mem_cons_of_mem b ha)).2
      · rw [tail_cons, head_cmd hsame, ← hchain.head, Option.map_map]
        rfl
      · obtain ⟨y, -, hy⟩ := map_eq_some_iff.mp hd
        cases hy
        exact carried_started ..
      · obtain ⟨i, hi, rfl⟩ | ⟨cmd, hserved, hready⟩ := h.ticket a t hw
        · cases i with
          | zero =>
            obtain rfl : b = a := some.inj hi
            refine .inr ⟨(S.buf b).cmd, ?_, ?_⟩
            · dsimp only
              rw [update_self, hdata]
              simp
            · simp [Buf.ready]
          | succ i => exact .inl ⟨i, hi, by simp; omega⟩
        · have hab : a ≠ b := fun he => by
            rw [he, (h.pending b mem_cons_self).2] at hready
            cases hready
          refine .inr ⟨cmd, ?_, ?_⟩
          · dsimp only
            rw [update_of_ne hab, getElem?_append_left (List.getElem?_eq_some_iff.mp hserved).1,
              hserved]
          · dsimp only
            rw [update_of_ne hab, hready]
  · cases hs

theorem Inv.resume (h : Inv S q) (hs : step S (.resume b) = some r) :
    ∃ S', r = .ok S' ∧ Inv S' q := by
  simp only [step] at hs
  split_ifs at hs with hw hready
  · obtain rfl := some.inj hs
    have hb : b ∉ q := fun hb => by
      rw [(h.pending b hb).2] at hready
      cases hready
    refine ⟨_, rfl, h.chain, h.nodup, h.order, fun a ha => ⟨?_, (h.pending a ha).2⟩, h.device, h.carried,
      fun a t hwait => ?_⟩
    · have hab : a ≠ b := fun he => hb (he ▸ ha)
      simpa [hab] using (h.pending a ha).1
    · dsimp only at hwait
      by_cases hab : a = b
      · simp [hab] at hwait
      · rw [update_of_ne hab] at hwait
        exact h.ticket a t hwait
  · obtain rfl := some.inj hs
    exact ⟨_, rfl, h⟩

theorem Inv.change (h : Inv S q) {x : Buf A D} (hs : step S (.change b x) = some r) :
    ∃ S', r = .ok S' ∧ Inv S' q := by
  simp only [step] at hs
  split_ifs at hs with hw
  · obtain rfl := some.inj hs
    have hsame : ∀ {a}, S.waiting a ≠ none → update S.buf b x a = S.buf a := fun {a} ha =>
      update_of_ne (fun he : a = b => ha (he ▸ hw)) ..
    have hq : ∀ a ∈ q, update S.buf b x a = S.buf a := fun a ha => hsame (h.pending a ha).1
    refine ⟨_, rfl, h.chain, h.nodup, ?_, fun a ha => ?_, ?_, h.carried, fun a t hwait => ?_⟩
    · rw [map_request hq]
      exact h.order
    · dsimp only
      rw [hq a ha]
      exact h.pending a ha
    · rw [head_cmd hq]
      exact h.device
    · dsimp only
      rw [hsame (show S.waiting a ≠ none by rw [hwait]; exact Option.some_ne_none t)]
      exact h.ticket a t hwait

/-- **Requests are served once and in order.** -/
structure Orderly (S : State n A D) : Prop where
  /-- The list has an end and no buffer twice.  What has arrived is what has been served and, after it,
  what is in the list; the device has the command for the first, and none if there is none. -/
  list : ∃ q, Chain S.qnext S.idequeue q ∧ q.Nodup ∧
    S.arrived = S.served.map (fun r => (r.1, r.2.1)) ++ q.map S.request ∧
    S.device.map Prod.fst = q.head?.map fun b => (S.buf b).cmd
  idle : S.device = none ↔ S.idequeue = none
  transferred : ∀ cmd v, S.device = some (cmd, v) → Carried S.disk cmd v
  /-- A call returns when its own request has been served, as it arrived, and its buffer holds the
  contents of the sector, is valid and clean. -/
  returns : ∀ b S', S.waiting b ≠ none → step S (.resume b) = some (.ok S') → S'.waiting b = none →
    ∃ t cmd, S.waiting b = some t ∧ S.arrived[t]? = some (b, cmd) ∧
      S.served[t]? = some (b, cmd, (S.buf b).data) ∧ (S.buf b).valid = true ∧ (S.buf b).dirty = false
  ends : ∀ a, step S a ≠ some (.error .loops)

theorem Inv.step (h : Inv S q) {a : Act n A D} (hs : step S a = some r) :
    r = .error .nothingToDo ∨ ∃ S' q', r = .ok S' ∧ Inv S' q' := by
  cases a with
  | iderw b => exact (h.iderw hs).imp_right fun ⟨S', hS'⟩ => ⟨S', _, hS'⟩
  | complete =>
    obtain ⟨S', hS'⟩ := h.complete hs
    exact .inr ⟨S', _, hS'⟩
  | ideintr =>
    obtain ⟨S', hS'⟩ := h.ideintr hs
    exact .inr ⟨S', _, hS'⟩
  | resume b =>
    obtain ⟨S', hS'⟩ := h.resume hs
    exact .inr ⟨S', _, hS'⟩
  | change b x =>
    obtain ⟨S', hS'⟩ := h.change hs
    exact .inr ⟨S', _, hS'⟩

theorem Inv.returns (h : Inv S q) (hw : S.waiting b ≠ none)
    (hs : Ide.step S (.resume b) = some (.ok S')) (hret : S'.waiting b = none) :
    ∃ t cmd, S.waiting b = some t ∧ S.arrived[t]? = some (b, cmd) ∧
      S.served[t]? = some (b, cmd, (S.buf b).data) ∧ (S.buf b).valid = true ∧ (S.buf b).dirty = false := by
  simp only [Ide.step, if_neg hw] at hs
  split_ifs at hs with hready
  · obtain ⟨t, ht⟩ := ne_none_iff_exists'.mp hw
    obtain ⟨i, hi, -⟩ | ⟨cmd, hserved, -⟩ := h.ticket b t ht
    · rw [(h.pending b (mem_of_getElem? hi)).2] at hready
      cases hready
    · refine ⟨t, cmd, ht, ?_, hserved, ?_⟩
      · rw [h.order, getElem?_append_left, getElem?_map, hserved]
        · rfl
        · simpa using (List.getElem?_eq_some_iff.mp hserved).1
      · simpa [Buf.ready] using hready
  · cases hs
    exact absurd hret hw

end Inv

end Xv6.Ide
