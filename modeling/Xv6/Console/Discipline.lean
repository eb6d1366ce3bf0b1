import Xv6.Console.Basic

/-!
# Lines

What the console is for can be said without a buffer and without counters.  The keys that have
been typed since the last line was finished make up the line that is being edited (`compose`):
an erase key takes back the last character, a kill key all of them.  A newline or `^D` finishes
the line, and so does the character that fills the buffer; then the line is appended to the
text.  A character for which there is no room is refused.  Reads take the text, in order; a
`^D` in it ends a read and is not delivered, and a read that has bytes already leaves it for
the next one.  That is the machine `Tty`, which is driven by the same actions as the source's.
-/

namespace Xv6.Console

open Function List Transition

variable {C : Type} [DecidableEq C]

/-! ## What is typed -/

/-- The key takes something back. -/
def erases (c : UInt8) : Bool := c == ctrlU || c == ctrlH || c == del

/-- The effect of one key on a line. -/
def editKey (line : List UInt8) (c : UInt8) : List UInt8 :=
  if c = ctrlU then [] else if c = ctrlH ∨ c = del then line.dropLast else line ++ [c]

/-- The line that the keys make up. -/
def compose (keys : List UInt8) : List UInt8 := keys.foldl editKey []

@[simp] theorem compose_nil : compose [] = [] := rfl

@[simp] theorem compose_append (keys : List UInt8) (c : UInt8) :
    compose (keys ++ [c]) = editKey (compose keys) c := by
  simp [compose]

/-- A terminal. -/
structure Tty (C : Type) where
  /-- The lines that have been finished, one after the other. -/
  text : List UInt8
  /-- How much of the text reads have consumed. -/
  taken : ℕ
  /-- The keys of the line that is being edited. -/
  keys : List UInt8
  readers : Readers C

namespace Tty

/-- The text that has not been read. -/
def pending (T : Tty C) : List UInt8 := T.text.drop T.taken

/-- The line that is being edited. -/
def line (T : Tty C) : List UInt8 := compose T.keys

/-- The line is finished. -/
def finish (T : Tty C) : Tty C :=
  { T with text := T.text ++ T.line, keys := [], readers := T.readers.wakeup }

/-- A character goes into the line. -/
def enter (T : Tty C) (c : UInt8) : Tty C :=
  let T := { T with keys := T.keys ++ [c] }
  if c = newline ∨ c = ctrlD ∨ T.pending.length + T.line.length = inputBuf then T.finish else T

/-- A character is typed. -/
def key (T : Tty C) (c : UInt8) : Tty C :=
  if c = ctrlP ∨ c = 0 then T
  else if erases c then { T with keys := T.keys ++ [c] }
  -- otherwise it is refused
  else if T.pending.length + T.line.length < inputBuf then
    T.enter (if c = carriageReturn then newline else c)
  else T

end Tty

/-- What a read for which `n` of `target` bytes are missing does with the text: how much it
consumes, what it delivers, and how it ends. -/
def readText (killed : Bool) (target : ℕ) : ℕ → List UInt8 → ℕ × List UInt8 × Ending
  | 0, _ => (0, [], .returns 0)
  | n + 1, [] => (0, [], if killed then .killed else .sleeps (n + 1))
  | n + 1, c :: text =>
    if c = ctrlD then (if n + 1 < target then 0 else 1, [], .returns (n + 1))
    else if c = newline then (1, [c], .returns n)
    else
      let x := readText killed target n text
      (x.1 + 1, c :: x.2.1, x.2.2)

namespace Tty

/-- A stretch of a read. -/
def read (T : Tty C) (k : C) (target n : ℕ) (dst : List UInt8) : Tty C :=
  let x := readText (T.readers.killed k) target n T.pending
  { T with taken := T.taken + x.1, readers := T.readers.turn k target dst x.2.1 x.2.2 }

/-- One step of the terminal; what the source's machine cannot do it ignores. -/
def step (T : Tty C) : Act C → Tty C
  | .key c => T.key c
  | .read k n =>
    match T.readers.call k with
    | none => T.read k n.toNat n.toNat []
    | some _ => T
  | .resume k =>
    match T.readers.call k with
    | none => T
    | some c => if c.awake then T.read k c.target c.n c.dst else T
  | .kill k => { T with readers := T.readers.kill k }

end Tty

/-- The console with the terminal that it should be. -/
def stepBeside : StepFn (State C × Tty C) (Act C) Empty := noted step fun _ T a => T.step a

/-- At the start there is no text. -/
structure Blank (x : State C × Tty C) : Prop extends Idle x.1 where
  text : x.2.text = []
  taken : x.2.taken = 0
  keys : x.2.keys = []
  readers : x.2.readers = x.1.readers

/-! ## The buffer -/

/-- The part of the buffer that may be read. -/
def Input.committed (s : Input) : Ring inputBuf UInt8 := s.toRing.upTo s.w

/-- **The buffer holds the text that has not been read, and then the line.** -/
structure Refines (s : Input) (pending line : List UInt8) : Prop where
  committed : s.committed.contents = pending
  contents : s.contents = pending ++ line
  room : pending.length + line.length ≤ inputBuf
  newline : newline ∉ line
  ctrlD : ctrlD ∉ line

theorem inputBuf_dvd : inputBuf ∣ 2 ^ 32 := by decide

theorem inputBuf_lt : inputBuf < 2 ^ 32 := by decide

namespace Refines

variable {s : Input} {p l : List UInt8}

section

variable (h : Refines s p l)
include h

theorem length : s.length = p.length + l.length := by
  rw [← s.length_contents, h.contents, length_append]

theorem length_committed : s.committed.length = p.length := by
  rw [← s.committed.length_contents, h.committed]

theorem nwrite_eq_w : s.nwrite = s.w ↔ l = [] := by
  rw [← s.toRing.length_upTo_eq_iff, show s.toRing.upTo s.w = s.committed from rfl,
    h.length_committed, h.length, ← length_eq_zero_iff]
  omega

theorem nread_eq_w : s.nread = s.w ↔ p = [] := by
  have hempty := s.committed.isEmpty_iff
  rw [h.length_committed, length_eq_zero_iff] at hempty
  rw [← hempty, Ring.isEmpty, beq_iff_eq]
  rfl

theorem last (hl : l ≠ []) : s.unpush.contents = p ++ l.dropLast ∧ s.back = l.getLast hl := by
  have hpos : 0 < s.length := by
    rw [h.length]
    have := length_pos_iff.mpr hl
    omega
  have hback := s.contents_unpush hpos
  rw [h.contents, ← dropLast_concat_getLast hl, ← append_assoc] at hback
  obtain ⟨hinit, hlast⟩ := append_inj' hback rfl
  exact ⟨hinit.symm, (head_eq_of_cons_eq hlast).symm⟩

theorem erase (hl : l ≠ []) : Refines s.erase p l.dropLast := by
  refine ⟨h.committed, (h.last hl).1, ?_, fun hm => h.newline (dropLast_subset _ hm),
    fun hm => h.ctrlD (dropLast_subset _ hm)⟩
  have := h.room
  rw [length_dropLast]
  omega

end

theorem killLine (k : ℕ) {s : Input} {l : List UInt8} (h : Refines s p l) (hk : l.length ≤ k) :
    Refines (s.killLine k) p [] := by
  induction k generalizing s l with
  | zero =>
    obtain rfl : l = [] := length_eq_zero_iff.mp (by omega)
    exact h
  | succ k ih =>
    unfold Input.killLine
    by_cases hl : l = []
    · rw [if_neg fun hc => hc.1 (h.nwrite_eq_w.mpr hl)]
      rwa [hl] at h
    · have hback : s.back ≠ Console.newline := by
        rw [(h.last hl).2]
        exact fun he => h.newline (he ▸ getLast_mem hl)
      rw [if_pos ⟨fun he => hl (h.nwrite_eq_w.mp he), hback⟩]
      refine ih (h.erase hl) ?_
      rw [length_dropLast]
      omega

section

variable (h : Refines s p l) (hroom : p.length + l.length < inputBuf)
include h hroom

theorem contents_push (c : UInt8) : (s.push c).contents = p ++ (l ++ [c]) := by
  rw [Ring.contents_push inputBuf_dvd inputBuf_lt s.toRing c (h.length ▸ hroom), h.contents,
    append_assoc]

theorem push {c : UInt8} (hc : c ≠ Console.newline) (hd : c ≠ Console.ctrlD) :
    Refines { s with toRing := s.push c } p (l ++ [c]) := by
  have hcontents := h.contents_push hroom c
  have hlen : ((s.push c).upTo s.w).length = p.length := h.length_committed
  refine ⟨?_, hcontents, by simp; omega, by simp [h.newline, Ne.symm hc],
    by simp [h.ctrlD, Ne.symm hd]⟩
  have hle : ((s.push c).upTo s.w).length ≤ (s.push c).length := by
    rw [hlen, ← Ring.length_contents, hcontents]
    simp
  rw [show Input.committed _ = (s.push c).upTo s.w from rfl, Ring.contents_upTo _ hle, hlen,
    hcontents, take_left]

theorem finish (c : UInt8) :
    Refines (Input.commit { s with toRing := s.push c }) (p ++ (l ++ [c])) [] where
  committed := h.contents_push hroom c
  contents := by
    rw [append_nil]
    exact h.contents_push hroom c
  room := by simp; omega
  newline := not_mem_nil
  ctrlD := not_mem_nil

end

theorem pop {c : UInt8} (h : Refines s (c :: p) l) :
    s.front = c ∧ Refines { s with toRing := s.pop } p l := by
  have hlen := h.length
  have hlenc := h.length_committed
  rw [length_cons] at hlen hlenc
  have hall := s.toRing.contents_pop (by omega)
  have hcom := s.committed.contents_pop (by omega)
  rw [h.contents, cons_append] at hall
  rw [h.committed] at hcom
  obtain ⟨hfront, hrest⟩ := List.cons.inj hall
  have hroom := h.room
  rw [length_cons] at hroom
  exact ⟨hfront.symm, (List.cons.inj hcom).2.symm, hrest.symm, by omega, h.newline, h.ctrlD⟩

/-- **The loop of `consoleread` does with the buffer what a read does with the text.** -/
theorem readLoop (h : Refines s p l) (killed : Bool) (target n : ℕ) :
    (s.readLoop killed target n).2 = (readText killed target n p).2 ∧
      Refines (s.readLoop killed target n).1 (p.drop (readText killed target n p).1) l := by
  induction n generalizing s p with
  | zero => exact ⟨rfl, h⟩
  | succ n ih =>
    cases p with
    | nil =>
      simp only [Input.readLoop, if_pos (h.nread_eq_w.mpr rfl), readText]
      exact ⟨trivial, h⟩
    | cons c p =>
      have hne : s.nread ≠ s.w := fun he => cons_ne_nil _ _ (h.nread_eq_w.mp he)
      obtain ⟨rfl, hpop⟩ := h.pop
      simp only [Input.readLoop, if_neg hne, readText]
      by_cases hd : s.front = Console.ctrlD
      · simp only [if_pos hd, true_and]
        split
        · -- `input.r` is where it was
          have hback : s.pop.nread - 1 = s.nread := UInt32.add_sub_cancel ..
          rw [hback]
          exact h
        · exact hpop
      · by_cases hn : s.front = Console.newline
        · simp only [if_neg hd, if_pos hn]
          exact ⟨trivial, hpop⟩
        · obtain ⟨hout, hrest⟩ := ih hpop
          simp only [if_neg hd, if_neg hn, hout, drop_succ_cons]
          exact ⟨trivial, hrest⟩

end Refines

/-! ## Keys -/

namespace Tty

variable {T : Tty C}

omit [DecidableEq C] in
theorem key_erases {c : UInt8} (hc : erases c = true) :
    T.key c = { T with keys := T.keys ++ [c] } := by
  have hne : ¬(c = ctrlP ∨ c = 0) := by
    rintro (rfl | rfl) <;> exact absurd hc (by decide)
  rw [key, if_neg hne, if_pos hc]

omit [DecidableEq C] in
theorem finish_pending (h : T.taken ≤ T.text.length) :
    T.finish.pending = T.pending ++ T.line := by
  simp only [pending, finish]
  exact drop_append_of_le_length h

end Tty

namespace Refines

variable {s : Input} {p l : List UInt8}

theorem toNat_sub_w (h : Refines s p l) : (s.nwrite - s.w).toNat = l.length := by
  have he := s.toRing.nwrite_eq
  have hw : s.w = s.nread + UInt32.ofNat p.length := h.length_committed ▸ s.committed.nwrite_eq
  have hroom := h.room
  have hsub : s.nwrite - s.w = UInt32.ofNat l.length := by
    rw [UInt32.sub_eq_iff_eq_add, he, hw, h.length, UInt32.ofNat_add]
    grind
  rw [hsub, UInt32.toNat_ofNat', Nat.mod_eq_of_lt (by have := inputBuf_lt; omega)]

theorem lt_inputBuf (h : Refines s p l) :
    s.nwrite - s.nread < UInt32.ofNat inputBuf ↔ p.length + l.length < inputBuf := by
  rw [UInt32.lt_iff_toNat_lt, ← h.length]
  exact Iff.rfl

end Refines

theorem Refines.erases {s : Input} {p l : List UInt8} (h : Refines s p l) {c : UInt8}
    (hc : erases c = true) :
    Refines (s.consoleintr c).1 p (editKey l c) ∧ (s.consoleintr c).2 = false := by
  have hP : c ≠ Console.ctrlP := by
    rintro rfl
    exact absurd hc (by decide)
  rw [Input.consoleintr, if_neg hP, editKey]
  by_cases hU : c = ctrlU
  · rw [if_pos hU, if_pos hU]
    exact ⟨h.killLine _ h.toNat_sub_w.ge, rfl⟩
  · have hH : c = ctrlH ∨ c = del := by simpa [Console.erases, hU] using hc
    rw [if_neg hU, if_neg hU, if_pos hH, if_pos hH]
    refine ⟨?_, rfl⟩
    by_cases hl : l = []
    · rw [if_neg fun hne => hne (h.nwrite_eq_w.mpr hl)]
      subst hl
      exact h
    · rw [if_pos fun he => hl (h.nwrite_eq_w.mp he)]
      exact h.erase hl

omit [DecidableEq C] in
theorem Refines.enter {s : Input} {T : Tty C} (h : Refines s T.pending T.line)
    (ht : T.taken ≤ T.text.length) (hroom : T.pending.length + T.line.length < inputBuf)
    {c : UInt8} (hc : Console.erases c = false) :
    Refines (s.store c).1 (T.enter c).pending (T.enter c).line ∧
      (T.enter c).readers = if (s.store c).2 then T.readers.wakeup else T.readers := by
  have hline : Tty.line { T with keys := T.keys ++ [c] } = T.line ++ [c] := by
    simp only [Console.erases, Bool.or_eq_false_iff, beq_eq_false_iff_ne] at hc
    rw [Tty.line, compose_append, editKey, if_neg hc.1.1, if_neg (by simp [hc.1.2, hc.2])]
    rfl
  have hfull : (s.push c).isFull = true ↔
      T.pending.length + (T.line ++ [c]).length = inputBuf := by
    rw [Ring.isFull_iff inputBuf_lt, ← Ring.length_contents, h.contents_push hroom c,
      length_append]
  have hfin : (c = Console.newline ∨ c = Console.ctrlD ∨
      T.pending.length + (T.line ++ [c]).length = inputBuf) ↔
      (c = Console.newline ∨ c = Console.ctrlD ∨ (s.push c).isFull = true) := by
    rw [hfull]
  rw [Tty.enter, Input.store]
  dsimp only
  rw [hline, show Tty.pending { T with keys := T.keys ++ [c] } = T.pending from rfl]
  by_cases hf : c = Console.newline ∨ c = Console.ctrlD ∨ (s.push c).isFull = true
  · rw [if_pos (hfin.mpr hf), if_pos hf]
    refine ⟨?_, rfl⟩
    rw [Tty.finish_pending (T := { T with keys := T.keys ++ [c] }) ht, hline]
    exact h.finish hroom c
  · rw [if_neg (mt hfin.mp hf), if_neg hf, hline]
    rw [not_or, not_or] at hf
    exact ⟨h.push hroom hf.1 hf.2.1, rfl⟩

omit [DecidableEq C] in
/-- **A key does with the buffer what it does with the line.** -/
theorem Refines.key {s : Input} {T : Tty C} (h : Refines s T.pending T.line)
    (ht : T.taken ≤ T.text.length) (c : UInt8) :
    Refines (s.consoleintr c).1 (T.key c).pending (T.key c).line ∧
      (T.key c).readers = (if (s.consoleintr c).2 then T.readers.wakeup else T.readers) := by
  by_cases he : Console.erases c = true
  · rw [Tty.key_erases he]
    obtain ⟨href, hwake⟩ := h.erases he
    rw [hwake]
    refine ⟨?_, rfl⟩
    rw [show Tty.line _ = compose (T.keys ++ [c]) from rfl, compose_append]
    exact href
  · have hne : c ≠ ctrlU ∧ ¬(c = ctrlH ∨ c = del) := by
      simpa [Console.erases, and_assoc] using he
    rw [Tty.key, Input.consoleintr]
    by_cases hP : c = ctrlP
    · rw [if_pos hP, if_pos (.inl hP)]
      exact ⟨h, rfl⟩
    rw [if_neg hP, if_neg hne.1, if_neg hne.2]
    by_cases h0 : c = 0
    · rw [if_pos (.inr h0 : c = ctrlP ∨ c = 0), if_neg fun hc : c ≠ 0 ∧ _ => hc.1 h0]
      exact ⟨h, rfl⟩
    rw [if_neg (not_or.mpr ⟨hP, h0⟩), if_neg he]
    by_cases hroom : T.pending.length + T.line.length < inputBuf
    · rw [if_pos hroom, if_pos ⟨h0, h.lt_inputBuf.mpr hroom⟩]
      refine h.enter ht hroom ?_
      split
      · rfl
      · simpa using he
    · rw [if_neg hroom, if_neg fun hc => hroom (h.lt_inputBuf.mp hc.2)]
      exact ⟨h, rfl⟩

/-! ## What is read -/

/-- What a read consumes is text, what it delivers is that less a `^D`, and what is missing
is missing; only the killed are killed. -/
theorem readText_spec (killed : Bool) (target n : ℕ) (p : List UInt8) :
    (readText killed target n p).1 ≤ p.length ∧
    (readText killed target n p).2.1 =
      (p.take (readText killed target n p).1).filter (· ≠ ctrlD) ∧
    (∀ m, (readText killed target n p).2.2 = .returns m ∨
      (readText killed target n p).2.2 = .sleeps m →
      (readText killed target n p).2.1.length + m = n) ∧
    ((readText killed target n p).2.2 = .killed → killed = true) := by
  induction n generalizing p with
  | zero => simp [readText]
  | succ n ih =>
    cases p with
    | nil => cases killed <;> simp [readText]
    | cons c p =>
      simp only [readText]
      by_cases hd : c = ctrlD
      · simp only [if_pos hd]
        split <;> simp [hd]
      · by_cases hn : c = newline
        · simp only [if_neg hd, if_pos hn]
          simp [hd, add_comm]
        · obtain ⟨hle, hgot, hmiss, hkilled⟩ := ih p
          simp only [if_neg hd, if_neg hn]
          refine ⟨by simpa using hle, by simp [hd, hgot], fun m hm => ?_, hkilled⟩
          have := hmiss m hm
          rw [length_cons]
          omega

namespace Readers

variable (R : Readers C) (k : C) (target : ℕ) (dst got : List UInt8) (e : Ending)

theorem turn_delivered :
    (R.turn k target dst got e).delivered = R.delivered ++ got.map fun b => (k, b) := by
  cases e <;> rfl

theorem turn_killed : (R.turn k target dst got e).killed = R.killed := by
  cases e <;> rfl

theorem turn_call_ne {k' : C} (h : k' ≠ k) :
    (R.turn k target dst got e).call k' = R.call k' := by
  cases e <;> exact update_of_ne h _ _

theorem turn_mine :
    ((R.turn k target dst got e).results.filter fun r => r.caller = k).flatMap Result.bytes ++
        ((R.turn k target dst got e).call k).elim [] Call.dst =
      (R.results.filter fun r => r.caller = k).flatMap Result.bytes ++ (dst ++ got) := by
  cases e <;> simp [turn]

theorem turn_others {k' : C} (h : k' ≠ k) :
    (R.turn k target dst got e).results.filter (fun r => r.caller = k') =
      R.results.filter fun r => r.caller = k' := by
  cases e <;> simp [turn, Ne.symm h]

end Readers

/-- **What has been delivered is the text, up to the last read.** -/
structure Ledger (T : Tty C) : Prop where
  taken : T.taken ≤ T.text.length
  delivered : T.readers.delivered.map Prod.snd = (T.text.take T.taken).filter (· ≠ ctrlD)
  /-- What a reader was delivered is in the calls that have returned to it, and in the one it
  sleeps in. -/
  mine : ∀ k, (T.readers.delivered.filter fun d => d.1 = k).map Prod.snd =
    (T.readers.results.filter fun r => r.caller = k).flatMap Result.bytes ++
      (T.readers.call k).elim [] Call.dst
  /-- A call returns how many bytes it has stored, unless its process is killed. -/
  value : ∀ r ∈ T.readers.results,
    r.value = r.bytes.length ∨ r.value = -1 ∧ T.readers.killed r.caller = true
  missing : ∀ {k c}, T.readers.call k = some c → c.dst.length + c.n = c.target

namespace Ledger

variable {T : Tty C}

theorem of_readers (h : Ledger T) {T' : Tty C} (htext : ∃ more, T'.text = T.text ++ more)
    (htaken : T'.taken = T.taken) (hdel : T'.readers.delivered = T.readers.delivered)
    (hres : T'.readers.results = T.readers.results)
    (hkilled : ∀ k, T.readers.killed k = true → T'.readers.killed k = true)
    (hcall : ∀ k, (T'.readers.call k).map (fun c => (c.target, c.n, c.dst)) =
      (T.readers.call k).map fun c => (c.target, c.n, c.dst)) : Ledger T' := by
  obtain ⟨more, htext⟩ := htext
  have hdst : ∀ k, (T'.readers.call k).elim [] Call.dst = (T.readers.call k).elim [] Call.dst := by
    intro k
    have := hcall k
    cases hc : T'.readers.call k <;> cases hc' : T.readers.call k <;> simp_all
  refine ⟨?_, ?_, fun k => ?_, fun r hr => ?_, fun {k c} hc => ?_⟩
  · rw [htaken, htext, length_append]
    have := h.taken
    omega
  · rw [hdel, htaken, htext, take_append_of_le_length h.taken]
    exact h.delivered
  · rw [hdel, hres, hdst]
    exact h.mine k
  · rw [hres] at hr
    exact (h.value r hr).imp_right fun hv => ⟨hv.1, hkilled _ hv.2⟩
  · have := hcall k
    rw [hc] at this
    cases hc' : T.readers.call k with
    | none => simp [hc'] at this
    | some c' =>
      have hmiss := h.missing hc'
      simp only [hc', Option.map_some, Option.some.injEq, Prod.mk.injEq] at this
      rw [this.1, this.2.1, this.2.2]
      exact hmiss

omit [DecidableEq C] in
theorem awake_what (o : Option Call) :
    (o.map fun c => { c with awake := true }).map (fun c => (c.target, c.n, c.dst)) =
      o.map fun c => (c.target, c.n, c.dst) := by
  rw [Option.map_map]
  rfl

theorem keys (h : Ledger T) (keys : List UInt8) : Ledger { T with keys := keys } :=
  h.of_readers ⟨[], (append_nil _).symm⟩ rfl rfl rfl (fun _ => id) fun _ => rfl

theorem enter (h : Ledger T) (c : UInt8) : Ledger (T.enter c) := by
  unfold Tty.enter
  dsimp only
  split
  · exact h.of_readers ⟨_, rfl⟩ rfl rfl rfl (fun _ => id) fun k => awake_what (T.readers.call k)
  · exact h.keys _

theorem key (h : Ledger T) (c : UInt8) : Ledger (T.key c) := by
  unfold Tty.key
  split
  · exact h
  split
  · exact h.keys _
  split
  · exact h.enter _
  · exact h

theorem kill (h : Ledger T) (k : C) : Ledger { T with readers := T.readers.kill k } := by
  refine h.of_readers ⟨[], (append_nil _).symm⟩ rfl rfl rfl (fun k' hk' => ?_) fun k' => ?_
  · by_cases hk : k' = k <;> simp [Readers.kill, hk, hk']
  · by_cases hk : k' = k
    · subst hk
      simp only [Readers.kill, update_self, awake_what]
    · simp only [Readers.kill, update_of_ne hk]

theorem read (h : Ledger T) {k : C} {target n : ℕ} {dst : List UInt8}
    (hdst : dst = (T.readers.call k).elim [] Call.dst) (hn : dst.length + n = target) :
    Ledger (T.read k target n dst) := by
  obtain ⟨hle, hgot, hmiss, hkilled⟩ := readText_spec (T.readers.killed k) target n T.pending
  set x := readText (T.readers.killed k) target n T.pending with hx
  have hread : (T.read k target n dst).readers = T.readers.turn k target dst x.2.1 x.2.2 := rfl
  have htaken : (T.read k target n dst).taken = T.taken + x.1 := rfl
  have htext : (T.read k target n dst).text = T.text := rfl
  refine ⟨?_, ?_, fun k' => ?_, fun r hr => ?_, fun {k' c} hc => ?_⟩
  · rw [htaken, htext]
    have := h.taken
    rw [Tty.pending, length_drop] at hle
    omega
  · rw [hread, Readers.turn_delivered, htaken, htext, take_add, filter_append,
      map_append, h.delivered, map_map, hgot]
    simp [Tty.pending]
  · rw [hread, Readers.turn_delivered, filter_append, map_append, h.mine k']
    by_cases hk : k' = k
    · subst hk
      rw [Readers.turn_mine, ← hdst, append_assoc]
      simp [filter_map, comp_def]
    · rw [Readers.turn_others _ _ _ _ _ _ hk, Readers.turn_call_ne _ _ _ _ _ _ hk]
      simp [filter_map, comp_def, Ne.symm hk]
  · rw [hread] at hr ⊢
    rw [Readers.turn_killed]
    cases he : x.2.2 with
    | returns m =>
      have hm := hmiss m (.inl he)
      simp only [he, Readers.turn, mem_append, mem_singleton] at hr
      obtain hr | rfl := hr
      · exact h.value r hr
      · refine .inl ?_
        simp only [length_append]
        omega
    | killed =>
      simp only [he, Readers.turn, mem_append, mem_singleton] at hr
      obtain hr | rfl := hr
      · exact h.value r hr
      · exact .inr ⟨rfl, hkilled he⟩
    | sleeps m =>
      rw [he] at hr
      exact h.value r hr
  · rw [hread] at hc
    by_cases hk : k' = k
    · subst hk
      cases he : x.2.2 with
      | returns | killed =>
        rw [he] at hc
        simp [Readers.turn] at hc
      | sleeps m =>
        have hm := hmiss m (.inr he)
        rw [he] at hc
        simp only [Readers.turn, update_self, Option.some.injEq] at hc
        subst hc
        simp only [length_append]
        omega
    · rw [Readers.turn_call_ne _ _ _ _ _ _ hk] at hc
      exact h.missing hc

end Ledger

/-! ## All steps -/

/-- **The line discipline.** -/
structure Disciplined (x : State C × Tty C) : Prop where
  /-- `0 <= w - r <= e - r <= INPUT_BUF` -/
  bounds : (x.1.input.w - x.1.input.nread).toNat ≤ (x.1.input.nwrite - x.1.input.nread).toNat ∧
    (x.1.input.nwrite - x.1.input.nread).toNat ≤ inputBuf
  buffer : Refines x.1.input x.2.pending x.2.line
  readers : x.1.readers = x.2.readers
  ledger : Ledger x.2
  /-- Erasing leaves the text that may be read alone. -/
  erasing : ∀ c, erases c = true →
    (x.1.input.consoleintr c).1.nread = x.1.input.nread ∧
    (x.1.input.consoleintr c).1.w = x.1.input.w ∧
    (x.1.input.consoleintr c).1.committed.contents = x.1.input.committed.contents
  /-- A `^D` ends a read that has bytes already, and is left where it is; any other read that
  comes to it takes it and returns nothing. -/
  eof : ∀ k target n dst rest, x.2.pending = ctrlD :: rest →
    (x.1.consoleread k target (n + 1) dst).readers =
      x.1.readers.turn k target dst [] (.returns (n + 1)) ∧
    (x.1.consoleread k target (n + 1) dst).input.committed.contents =
      if n + 1 < target then ctrlD :: rest else rest

theorem consoleintr_erases (s : Input) {c : UInt8} (hc : erases c = true) :
    (s.consoleintr c).1.nread = s.nread ∧ (s.consoleintr c).1.w = s.w := by
  have hkill : ∀ (k : ℕ) (s : Input), (s.killLine k).nread = s.nread ∧ (s.killLine k).w = s.w := by
    intro k
    induction k with
    | zero => exact fun _ => ⟨rfl, rfl⟩
    | succ k ih =>
      intro s
      unfold Input.killLine
      split
      · exact ih s.erase
      · exact ⟨rfl, rfl⟩
  have hP : c ≠ ctrlP := by
    rintro rfl
    exact absurd hc (by decide)
  rw [Input.consoleintr, if_neg hP]
  by_cases hU : c = ctrlU
  · rw [if_pos hU]
    exact hkill _ s
  · rw [if_neg hU, if_pos (by simpa [erases, hU] using hc)]
    dsimp only
    split <;> exact ⟨rfl, rfl⟩

theorem Disciplined.of_refines {x : State C × Tty C} (h : Refines x.1.input x.2.pending x.2.line)
    (hr : x.1.readers = x.2.readers) (hl : Ledger x.2) : Disciplined x where
  bounds := by
    have hw : (x.1.input.w - x.1.input.nread).toNat = x.2.pending.length := h.length_committed
    have he : (x.1.input.nwrite - x.1.input.nread).toNat =
      x.2.pending.length + x.2.line.length := h.length
    have := h.room
    omega
  buffer := h
  readers := hr
  ledger := hl
  erasing c hc := by
    obtain ⟨hread, hw⟩ := consoleintr_erases x.1.input hc
    exact ⟨hread, hw, (h.erases hc).1.committed.trans h.committed.symm⟩
  eof k target n dst rest hp := by
    obtain ⟨hout, hinput⟩ := h.readLoop (x.1.readers.killed k) target (n + 1)
    have htext : readText (x.1.readers.killed k) target (n + 1) x.2.pending =
        (if n + 1 < target then 0 else 1, [], .returns (n + 1)) := by
      simp [hp, readText]
    rw [htext] at hout hinput
    refine ⟨?_, ?_⟩
    · simp only [State.consoleread, hout]
    · rw [State.consoleread, hinput.committed, hp]
      split <;> rfl

theorem Disciplined.consoleread {x : State C × Tty C} (h : Disciplined x) {k : C} {target n : ℕ}
    {dst : List UInt8} (hdst : dst = (x.2.readers.call k).elim [] Call.dst)
    (hn : dst.length + n = target) :
    Disciplined (x.1.consoleread k target n dst, x.2.read k target n dst) := by
  obtain ⟨hout, hinput⟩ := h.buffer.readLoop (x.1.readers.killed k) target n
  refine .of_refines ?_ ?_ (h.ledger.read hdst hn)
  · show Refines _ (x.2.text.drop (x.2.taken + _)) x.2.line
    rw [← drop_drop, ← h.readers]
    exact hinput
  · simp only [State.consoleread, Tty.read, hout]
    rw [h.readers]

theorem Blank.disciplined {x : State C × Tty C} (h : Blank x) : Disciplined x := by
  have hpending : x.2.pending = [] := by simp [Tty.pending, h.text]
  have hline : x.2.line = [] := by simp [Tty.line, h.keys]
  have hempty : ∀ r : Ring inputBuf UInt8, r.nwrite = r.nread → r.contents = [] := by
    intro r hr
    rw [← length_eq_zero_iff, r.length_contents, ← r.isEmpty_iff, Ring.isEmpty, hr]
    exact beq_self_eq_true _
  refine .of_refines ?_ h.readers.symm ?_
  · rw [hpending, hline]
    exact ⟨hempty _ h.w, hempty _ h.e, Nat.zero_le _, not_mem_nil, not_mem_nil⟩
  · have hcall : ∀ k, x.2.readers.call k = none := by
      intro k
      rw [h.readers, h.call]
    have hres : x.2.readers.results = [] := by rw [h.readers, h.results]
    have hdel : x.2.readers.delivered = [] := by rw [h.readers, h.delivered]
    exact ⟨by simp [h.taken], by simp [hdel, h.taken], by simp [hdel, hres, hcall], by simp [hres],
      by simp [hcall]⟩

/-- **One step.** -/
theorem Disciplined.step {x : State C × Tty C} (h : Disciplined x) {a : Act C} {S' : State C}
    (hs : step x.1 a = some (.ok S')) : Disciplined (S', x.2.step a) := by
  obtain ⟨S, T⟩ := x
  have hr : S.readers = T.readers := h.readers
  cases a with
  | key c =>
    cases hs
    obtain ⟨hinput, hreaders⟩ := h.buffer.key h.ledger.taken c
    refine .of_refines hinput ?_ (h.ledger.key c)
    rw [Tty.step, hreaders, ← hr]
  | read k n =>
    simp only [Console.step] at hs
    split at hs
    · rename_i hcall
      cases hs
      have hcall' : T.readers.call k = none := hr ▸ hcall
      simp only [Tty.step, hcall']
      exact h.consoleread (by simp [hcall']) (by simp)
    · cases hs
  | resume k =>
    simp only [Console.step] at hs
    split at hs
    · cases hs
    · rename_i c hcall
      split at hs
      · rename_i hawake
        cases hs
        have hcall' : T.readers.call k = some c := hr ▸ hcall
        simp only [Tty.step, hcall', hawake, if_true]
        exact h.consoleread (by simp [hcall']) (h.ledger.missing hcall')
      · cases hs
  | kill k =>
    cases hs
    exact .of_refines h.buffer (congrArg (Readers.kill · k) hr) (h.ledger.kill k)

/-- **The console keeps the line discipline**, in every state that any interleaving of typed
characters, reads of any lengths and kills reaches, wherever the counters started. -/
theorem console_line_discipline {x : State C × Tty C} (h : Reach stepBeside anyStep Blank x) :
    Disciplined x := by
  refine Reach.invariant (I := Disciplined) (fun x hx => ?_) (fun x a x' hx _ hs => ?_) h
  · exact hx.disciplined
  · obtain ⟨hs, hT⟩ := noted_ok hs
    have hstep := hx.step hs
    rwa [← hT] at hstep

/-- Two processes read; the counters are about to wrap around. -/
def atStart : State Bool where
  input := { toRing := ⟨fun _ => 0, 0xfffffffe, 0xfffffffe⟩, w := 0xfffffffe }
  readers := ⟨fun _ => none, fun _ => false, [], []⟩

/-- The first process waits for a line; `ax<^H>b<^D>` is typed and it gets `ab`, without the
`^D`, at which the second then finds the end of the file. -/
def twoReaders : List (Act Bool) :=
  [.read false 5, .key 0x61, .key 0x78, .key ctrlH, .key 0x62, .key ctrlD, .resume false,
    .read true 4]

theorem console_line_discipline_twoReaders :
    ∃ x : State Bool × Tty Bool, Reach stepBeside anyStep Blank x ∧ Disciplined x ∧
      x.1.readers.results.map (fun r => (r.caller, r.value, r.bytes)) =
        [(false, 2, [0x61, 0x62]), (true, 0, [])] := by
  have hstart : Blank (atStart, ⟨[], 0, [], atStart.readers⟩) :=
    ⟨⟨rfl, rfl, fun _ => rfl, rfl, rfl⟩, rfl, rfl, rfl, rfl⟩
  have he : endsIn stepBeside (atStart, ⟨[], 0, [], atStart.readers⟩) twoReaders (fun x =>
      decide (x.1.readers.results.map (fun r => (r.caller, r.value, r.bytes)) =
        [(false, 2, [0x61, 0x62]), (true, 0, [])])) = true := by
    decide +kernel
  obtain ⟨x, hx, hres⟩ := Reach.of_endsIn hstart he
  exact ⟨x, hx, console_line_discipline hx, by simpa using hres⟩

end Xv6.Console
