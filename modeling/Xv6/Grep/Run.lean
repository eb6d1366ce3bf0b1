import Xv6.Grep.Match
import Xv6.Lib.Transition
import Xv6.Lib.Copy
import Mathlib.Algebra.Order.Group.Int

/-!
# The loop of `grep`

`grep` reads into `buf`, behind the unfinished line that it has kept there, looks for newlines with
`strchr`, and moves what is left to the front.  Two things go wrong.

* `strchr` stops at a NUL, and no NUL is put behind what has been read.  Older bytes of the buffer
  follow, with the newlines of the lines that matched, and are taken for lines.
* If there is no newline in the buffer then `m` is set to 0, and the unfinished line is lost.

Memory is a function of the distance from `buf`, up to the end `top` of the process; a page fault is
the only way to end early.  `State.input` keeps what has been read and nothing depends on it.  The
output is right as long as each read completes a line and no newline follows what was read before the
next NUL (`Completes`); a read that does not do so leaves the buffer wrong (`grep_exact`).
-/

namespace Xv6.Grep

open Function List Transition

/-- `'\n'` -/
def newline : UInt8 := 10

/-- `sizeof(buf)` -/
def bufSize : ℤ := 1024

abbrev Mem := ℤ → UInt8

/-! ## The code -/

/-- The loop of `strchr(p, '\n')`, with `k` bytes of memory from `p` on; `none` is a page fault. -/
def strchrFrom (mem : Mem) : ℕ → ℤ → Option (Option ℤ)
  | 0, _ => none
  | k + 1, p =>
    if mem p = 0 then some none
    else if mem p = newline then some (some p) else strchrFrom mem k (p + 1)

/-- `strchr(p, '\n')` -/
def strchr (top : ℤ) (mem : Mem) (p : ℤ) : Option (Option ℤ) := strchrFrom mem (top - p).toNat p

/-- The string at `p`, with `k` bytes of memory from `p` on. -/
def strFrom (mem : Mem) : ℕ → ℤ → List UInt8
  | 0, _ => []
  | k + 1, p => if mem p = 0 then [] else mem p :: strFrom mem k (p + 1)

/-- The bytes that `write(1, p, n)` writes. -/
def bytes (mem : Mem) (p : ℤ) (n : ℕ) : List UInt8 := (List.range n).map fun i : ℕ => mem (p + i)

/-- What `read` stores. -/
def store (mem : Mem) (p : ℤ) (l : List UInt8) : Mem := fun i =>
  if p ≤ i ∧ i < p + l.length then l.getD (i - p).toNat 0 else mem i

/-- `memmove` of `ulib.c`, for `n` bytes. -/
def memmove : ℕ → Mem → ℤ → ℤ → Mem
  | 0, mem, _, _ => mem
  | n + 1, mem, dst, src => memmove n (update mem dst (mem src)) (dst + 1) (src + 1)

/-- The inner loop of `grep`. -/
structure Cursor where
  mem : Mem
  p : ℤ
  out : List UInt8

/-- One round of it: the newline is at `q`. -/
def Cursor.line (pattern : List UInt8) (top : ℤ) (x : Cursor) (q : ℤ) : Cursor :=
  let mem := update x.mem q 0
  if matchText pattern (strFrom mem (top - x.p).toNat x.p) then
    let mem := update mem q newline
    ⟨mem, q + 1, x.out ++ bytes mem x.p (q + 1 - x.p).toNat⟩
  else ⟨mem, q + 1, x.out⟩

/-- The inner loop of `grep`, for at most `k` rounds. -/
def lineLoop (pattern : List UInt8) (top : ℤ) : ℕ → Cursor → Option Cursor
  | 0, _ => none
  | k + 1, x =>
    match strchr top x.mem x.p with
    | none => none
    | some none => some x
    | some (some q) => lineLoop pattern top k (x.line pattern top q)

structure State where
  mem : Mem
  m : ℤ
  out : List UInt8
  input : List UInt8

/-- One round of the outer loop, in which `read` returns `chunk`. -/
def round (pattern : List UInt8) (top : ℤ) (S : State) (chunk : List UInt8) : Option State :=
  match lineLoop pattern top (top.toNat + 1) ⟨store S.mem S.m chunk, 0, S.out⟩ with
  | none => none
  | some x =>
    let m := if x.p = 0 then 0 else S.m + chunk.length
    if 0 < m then
      some ⟨memmove (m - x.p).toNat x.mem 0 x.p, m - x.p, x.out, S.input ++ chunk⟩
    else some ⟨x.mem, m, x.out, S.input ++ chunk⟩

inductive Fault where
  | page
  deriving DecidableEq

/-- `read` returns what it likes, if it is not empty and fits. -/
def step (pattern : List UInt8) (top : ℤ) : StepFn State (List UInt8) Fault := fun S chunk =>
  if chunk = [] ∨ bufSize - S.m < chunk.length then none
  else
    match round pattern top S chunk with
    | none => some (.error .page)
    | some S' => some (.ok S')

/-- `grep` begins; what is in `buf` is left from before. -/
structure Begun (S : State) : Prop where
  m : S.m = 0
  out : S.out = []
  input : S.input = []

/-! ## Lines -/

/-- The finished lines, without their newlines, and the unfinished one. -/
def split : List UInt8 → List (List UInt8) × List UInt8
  | [] => ([], [])
  | c :: l =>
    if c = newline then ([] :: (split l).1, (split l).2)
    else
      match (split l).1 with
      | [] => ([], c :: (split l).2)
      | x :: xs => ((c :: x) :: xs, (split l).2)

/-- The lines that match, as they were. -/
def output (pattern : List UInt8) (lines : List (List UInt8)) : List UInt8 :=
  (lines.filter (matchText pattern)).flatMap (· ++ [newline])

variable {pattern l l' : List UInt8} {mem mem' : Mem} {p q top : ℤ}

theorem split_of_notMem : ∀ {l : List UInt8}, newline ∉ l → split l = ([], l)
  | [], _ => rfl
  | c :: l, h => by
    obtain ⟨hc, hl⟩ := not_or.mp (mt mem_cons.mpr h)
    rw [split, if_neg (Ne.symm hc), split_of_notMem hl]

theorem split_line : ∀ {l : List UInt8}, newline ∉ l →
    split (l ++ newline :: l') = (l :: (split l').1, (split l').2)
  | [], _ => if_pos rfl
  | c :: l, h => by
    obtain ⟨hc, hl⟩ := not_or.mp (mt mem_cons.mpr h)
    rw [cons_append, split, if_neg (Ne.symm hc), split_line hl]

theorem split_eq_of_nil {l : List UInt8} (h : (split l).1 = []) : (split l).2 = l := by
  by_cases hn : newline ∈ l
  · obtain ⟨a, b, rfl, ha⟩ := eq_append_cons_of_mem hn
    rw [split_line ha] at h
    cases h
  · rw [split_of_notMem hn]

theorem split_append (l' : List UInt8) : ∀ l : List UInt8,
    split (l ++ l') = ((split l).1 ++ (split ((split l).2 ++ l')).1, (split ((split l).2 ++ l')).2)
  | [] => by simp [split]
  | c :: l => by
    have ih := split_append l' l
    rw [cons_append, split, split, ih]
    by_cases hc : c = newline
    · simp [hc]
    · rw [if_neg hc, if_neg hc]
      cases (split l).1 with
      | nil =>
        rw [nil_append, cons_append, split, if_neg hc]
        rfl
      | cons x xs => rfl

theorem length_split_le : ∀ l : List UInt8, (split l).1.length + (split l).2.length ≤ l.length
  | [] => le_refl 0
  | c :: l => by
    have ih := length_split_le l
    rw [split]
    split
    · simp only [length_cons]
      omega
    · split
      · rename_i hs
        rw [hs] at ih
        simpa using ih
      · rename_i hs
        rw [hs] at ih
        simp only [length_cons] at ih ⊢
        omega

theorem split_suffix : ∀ l : List UInt8, (split l).2 <:+ l ∧ newline ∉ (split l).2
  | [] => ⟨suffix_refl [], not_mem_nil⟩
  | c :: l => by
    have ih := split_suffix l
    rw [split]
    split
    · exact ⟨ih.1.trans (suffix_cons ..), ih.2⟩
    · rename_i hc
      split
      · rename_i hs
        rw [split_eq_of_nil hs] at ih ⊢
        rw [mem_cons, not_or]
        exact ⟨suffix_refl _, Ne.symm hc, ih.2⟩
      · exact ⟨ih.1.trans (suffix_cons ..), ih.2⟩

theorem output_append (ls ls' : List (List UInt8)) :
    output pattern (ls ++ ls') = output pattern ls ++ output pattern ls' := by
  simp [output]

/-! ## Memory -/

/-- The bytes `l` are at `p`. -/
def At (mem : Mem) (p : ℤ) (l : List UInt8) : Prop := ∀ i (h : i < l.length), mem (p + i) = l[i]

theorem At.head {c : UInt8} (h : At mem p (c :: l)) : mem p = c := by
  simpa using h 0 (Nat.zero_lt_succ _)

theorem At.right (h : At mem p (l ++ l')) : At mem (p + l.length) l' := by
  intro i hi
  have := h (l.length + i) (by rw [length_append]; omega)
  rw [getElem_append_right (Nat.le_add_right ..)] at this
  simpa [← Int.add_assoc] using this

theorem At.left (h : At mem p (l ++ l')) : At mem p l := by
  intro i hi
  have := h i (by rw [length_append]; omega)
  rwa [getElem_append_left hi] at this

theorem At.tail {c : UInt8} (h : At mem p (c :: l)) : At mem (p + 1) l := by
  simpa using At.right (l := [c]) h

theorem At.append (h : At mem p l) (h' : At mem (p + l.length) l') : At mem p (l ++ l') := by
  intro i hi
  by_cases hil : i < l.length
  · rw [getElem_append_left hil]
    exact h i hil
  · rw [getElem_append_right (by omega)]
    have := h' (i - l.length) (by rw [length_append] at hi; omega)
    rwa [show p + l.length + ((i - l.length : ℕ) : ℤ) = p + i by omega] at this

theorem At.congr (h : At mem p l) (heq : ∀ i, p ≤ i → i < p + l.length → mem' i = mem i) :
    At mem' p l := fun i hi => by
  rw [heq _ (by omega) (by omega)]
  exact h i hi

theorem at_store : At (store mem p l) p l := by
  intro i hi
  rw [store, if_pos ⟨by omega, by omega⟩]
  simp [hi]

theorem bytes_of_at (h : At mem p l) : bytes mem p l.length = l := by
  refine ext_getElem (by simp [bytes]) fun i h₁ h₂ => ?_
  simp only [bytes, getElem_map, getElem_range]
  exact h i h₂

theorem strFrom_of_at : ∀ {l : List UInt8} {k : ℕ} {p : ℤ}, At mem p l → 0 ∉ l →
    mem (p + l.length) = 0 → l.length < k → strFrom mem k p = l
  | [], k + 1, p, _, _, hz, _ => by
    rw [strFrom, if_pos (by simpa using hz)]
  | c :: l, k + 1, p, h, h0, hz, hk => by
    obtain ⟨hc, hl⟩ := not_or.mp (mt mem_cons.mpr h0)
    rw [length_cons, Int.natCast_succ, Int.add_comm _ 1, ← Int.add_assoc] at hz
    rw [strFrom, h.head, if_neg (Ne.symm hc), strFrom_of_at h.tail hl hz (by simpa using hk)]

theorem strchr_skip (htop : p + l.length ≤ top) (h : At mem p l) (h0 : 0 ∉ l) (hn : newline ∉ l) :
    strchr top mem p = strchr top mem (p + l.length) := by
  have hfrom : ∀ {l : List UInt8} {k : ℕ} {p : ℤ}, At mem p l → 0 ∉ l → newline ∉ l →
      strchrFrom mem (k + l.length) p = strchrFrom mem k (p + l.length) := by
    intro l
    induction l with
    | nil => simp
    | cons c l ih =>
      intro k p h h0 hn
      obtain ⟨hc, hl⟩ := not_or.mp (mt mem_cons.mpr h0)
      obtain ⟨hcn, hln⟩ := not_or.mp (mt mem_cons.mpr hn)
      rw [length_cons, ← add_assoc, strchrFrom, h.head, if_neg (Ne.symm hc),
        if_neg (Ne.symm hcn), ih h.tail hl hln]
      congr 1
      omega
  rw [strchr, strchr, ← hfrom h h0 hn]
  congr 1
  omega

/-- There is a NUL at or behind `p`, and no newline before it. -/
def Quiet (top : ℤ) (mem : Mem) (p : ℤ) : Prop :=
  ∃ z, p ≤ z ∧ z < top ∧ mem z = 0 ∧ ∀ i, p ≤ i → i < z → mem i ≠ newline

theorem Quiet.congr (h : Quiet top mem p) (heq : ∀ i, p ≤ i → mem' i = mem i) : Quiet top mem' p := by
  obtain ⟨z, hp, ht, hz, hn⟩ := h
  exact ⟨z, hp, ht, (heq z hp).trans hz, fun i hi hiz => (heq i hi).symm ▸ hn i hi hiz⟩

theorem strchr_cases :
    Quiet top mem p ∧ strchr top mem p = some none ∨
      ¬Quiet top mem p ∧ (strchr top mem p = none ∨ ∃ q, p ≤ q ∧ strchr top mem p = some (some q)) := by
  obtain ⟨k, hk⟩ : ∃ k : ℕ, (top - p).toNat = k := ⟨_, rfl⟩
  unfold strchr
  induction k generalizing p with
  | zero =>
    refine .inr ⟨?_, .inl (by rw [hk, strchrFrom])⟩
    rintro ⟨z, h₁, h₂, -⟩
    omega
  | succ k ih =>
    rw [hk, strchrFrom]
    by_cases hz : mem p = 0
    · exact .inl ⟨⟨p, Int.le_refl p, by omega, hz, fun i _ _ => by omega⟩, if_pos hz⟩
    · rw [if_neg hz]
      by_cases hn : mem p = newline
      · refine .inr ⟨?_, .inr ⟨p, Int.le_refl p, if_pos hn⟩⟩
        rintro ⟨z, h₁, h₂, h₃, h₄⟩
        obtain rfl | hlt := h₁.eq_or_lt
        · exact hz h₃
        · exact h₄ p (Int.le_refl p) hlt hn
      · have hk' : (top - (p + 1)).toNat = k := by omega
        have hquiet : Quiet top mem p ↔ Quiet top mem (p + 1) := by
          constructor
          · rintro ⟨z, h₁, h₂, h₃, h₄⟩
            obtain rfl | hlt := h₁.eq_or_lt
            · exact absurd h₃ hz
            · exact ⟨z, by omega, h₂, h₃, fun i hi => h₄ i (by omega)⟩
          · rintro ⟨z, h₁, h₂, h₃, h₄⟩
            refine ⟨z, by omega, h₂, h₃, fun i hi hiz => ?_⟩
            obtain rfl | hlt := hi.eq_or_lt
            · exact hn
            · exact h₄ i (by omega) hiz
        rw [if_neg hn, hquiet]
        have ih := ih (p := p + 1) hk'
        rw [hk'] at ih
        refine ih.imp_right fun ih => ⟨ih.1, ih.2.imp_right fun ih => ?_⟩
        obtain ⟨q, hq, heq⟩ := ih
        exact ⟨q, by omega, heq⟩

theorem memmove_eq {n : ℕ} {mem : Mem} {dst src : ℤ} : memmove n mem dst src =
    Copy.run (fun i : ℕ => dst + i) (fun i : ℕ => src + i) (List.range n) mem := by
  induction n generalizing mem dst src with
  | zero => rfl
  | succ n ih =>
    rw [memmove, ih, range_succ_eq_map, Copy.run_cons, Copy.run, Copy.run, foldl_map]
    simp [add_assoc, add_comm (1 : ℤ)]

theorem memmove_of_le {n i : ℕ} {mem : Mem} {dst src : ℤ} (h : dst ≤ src) (hi : i < n) :
    memmove n mem dst src (dst + i) = mem (src + i) := by
  rw [memmove_eq]
  refine Copy.run_read (d := fun i : ℕ => dst + i) (s := fun i : ℕ => src + i)
    (Copy.pairwise_range fun j k hjk hk => ?_) (mem_range.mpr hi)
  omega

/-! ## The inner loop -/

theorem Cursor.line_eq (pattern : List UInt8) {x : Cursor} (htop : x.p + l.length < top) (h : At x.mem x.p (l ++ [newline]))
    (h0 : 0 ∉ l) :
    (x.line pattern top (x.p + l.length)).p = x.p + l.length + 1 ∧
      (x.line pattern top (x.p + l.length)).out = x.out ++ output pattern [l] ∧
      ∀ i, x.p + l.length + 1 ≤ i → (x.line pattern top (x.p + l.length)).mem i = x.mem i := by
  have hstr : strFrom (update x.mem (x.p + l.length) 0) (top - x.p).toNat x.p = l := by
    refine strFrom_of_at (h.left.congr fun i _ hi => ?_) h0 (update_self ..) (by omega)
    exact update_of_ne (by omega) ..
  have hafter : ∀ v i, x.p + l.length + 1 ≤ i →
      update x.mem (x.p + l.length) v i = x.mem i := fun v i hi =>
    update_of_ne (by omega) ..
  unfold Cursor.line
  simp only [hstr, output, filter_cons, filter_nil, update_idem]
  split
  · refine ⟨rfl, ?_, hafter newline⟩
    have hat : At (update x.mem (x.p + l.length) newline) x.p (l ++ [newline]) := by
      refine h.congr fun i _ _ => ?_
      by_cases hi : i = x.p + l.length
      · rw [hi, update_self]
        exact h.right.head.symm
      · exact update_of_ne hi ..
    have hlen : (x.p + l.length + 1 - x.p).toNat = (l ++ [newline]).length := by
      rw [length_append, length_singleton]
      omega
    rw [hlen, bytes_of_at hat]
    simp
  · exact ⟨rfl, by simp, hafter 0⟩

theorem lineLoop_data {k : ℕ} : ∀ {data : List UInt8} {x : Cursor}, x.p + data.length ≤ top →
    At x.mem x.p data → 0 ∉ data → ∃ y : Cursor,
      lineLoop pattern top (k + (split data).1.length) x = lineLoop pattern top k y ∧
        y.p = x.p + data.length - (split data).2.length ∧
        y.out = x.out ++ output pattern (split data).1 ∧ ∀ i, y.p ≤ i → y.mem i = x.mem i := by
  intro data
  induction hlen : data.length using Nat.strong_induction_on generalizing data with
  | _ n ih =>
    subst hlen
    intro x htop hat h0
    by_cases hn : newline ∈ data
    · obtain ⟨l, l', rfl, hl⟩ := eq_append_cons_of_mem hn
      have h0l : 0 ∉ l := fun h => h0 (mem_append_left _ h)
      have h0l' : 0 ∉ l' := fun h => h0 (mem_append_right _ (mem_cons_of_mem _ h))
      rw [length_append, length_cons] at htop
      have hat₁ : At x.mem x.p (l ++ [newline]) := by
        rw [append_cons] at hat
        exact hat.left
      have hat₂ : At x.mem (x.p + l.length + 1) l' := hat.right.tail
      have hstr : strchr top x.mem x.p = some (some (x.p + l.length)) := by
        have hpos : (top - (x.p + l.length)).toNat = (top - (x.p + l.length) - 1).toNat + 1 := by omega
        rw [strchr_skip (by omega) hat.left h0l hl, strchr, hpos, strchrFrom, hat.right.head,
          if_neg (by decide), if_pos rfl]
      obtain ⟨hp, hout, hframe⟩ := Cursor.line_eq pattern (show x.p + l.length < top by omega) hat₁ h0l
      obtain ⟨y, hy, hyp, hyout, hyframe⟩ := ih l'.length (by simp; omega) rfl
        (x := x.line pattern top (x.p + l.length)) (by rw [hp]; omega)
        (by rw [hp]; exact hat₂.congr fun i hi _ => hframe i hi) h0l'
      rw [hp] at hyp
      have hrest := length_split_le l'
      rw [split_line hl]
      refine ⟨y, ?_, ?_, ?_, fun i hi => ?_⟩
      · rw [length_cons, ← add_assoc, lineLoop, hstr]
        exact hy
      · simp only [hyp, length_append, length_cons]
        omega
      · rw [hyout, hout, append_assoc, ← output_append]
        rfl
      · rw [hyframe i hi, hframe i (by omega)]
    · rw [split_of_notMem hn]
      exact ⟨x, rfl, by simp, by simp [output], fun _ _ => rfl⟩

theorem Cursor.line_p (pattern : List UInt8) (top : ℤ) (x : Cursor) (q : ℤ) :
    (x.line pattern top q).p = q + 1 := by
  unfold Cursor.line
  dsimp only
  split <;> rfl

theorem lineLoop_le : ∀ {k : ℕ} {x y : Cursor}, lineLoop pattern top k x = some y → x.p ≤ y.p
  | 0, _, _, h => by cases h
  | k + 1, x, y, h => by
    rw [lineLoop] at h
    obtain ⟨-, heq⟩ | ⟨-, heq | ⟨q, hq, heq⟩⟩ := @strchr_cases x.mem x.p top
    · rw [heq] at h
      exact (Option.some.inj h) ▸ Int.le_refl _
    · rw [heq] at h
      cases h
    · rw [heq] at h
      have := x.line_p pattern top q
      have := lineLoop_le h
      omega

theorem lineLoop_rest {k : ℕ} {x : Cursor} (htop : x.p + l.length ≤ top) (h : At x.mem x.p l)
    (h0 : 0 ∉ l) (hn : newline ∉ l) :
    (Quiet top x.mem (x.p + l.length) → lineLoop pattern top (k + 1) x = some x) ∧
      (¬Quiet top x.mem (x.p + l.length) →
        ∀ y, lineLoop pattern top (k + 1) x = some y → x.p + l.length < y.p) := by
  rw [lineLoop, strchr_skip htop h h0 hn]
  obtain ⟨hq, heq⟩ | ⟨hq, heq | ⟨q, hle, heq⟩⟩ := @strchr_cases x.mem (x.p + l.length) top
  · rw [heq]
    exact ⟨fun _ => rfl, fun hc => absurd hq hc⟩
  · rw [heq]
    exact ⟨fun hc => absurd hc hq, fun _ y hy => by cases hy⟩
  · rw [heq]
    refine ⟨fun hc => absurd hc hq, fun _ y hy => ?_⟩
    have := x.line_p pattern top q
    have := lineLoop_le hy
    omega

/-! ## The outer loop -/

/-- The unfinished line is in the buffer, and the finished ones have been dealt with. -/
structure Exact (pattern : List UInt8) (S : State) : Prop where
  m : S.m = (split S.input).2.length
  kept : At S.mem 0 (split S.input).2
  out : S.out = output pattern (split S.input).1

/-- **When a read goes well**: what is read completes a line, and behind it there is no newline before
the next NUL. -/
def Completes (top : ℤ) (S : State) (chunk : List UInt8) : Prop :=
  newline ∈ chunk ∧ Quiet top S.mem (S.m + chunk.length)

section round

variable {S : State} {chunk : List UInt8} (h : Exact pattern S) (hin : 0 ∉ S.input)
  (h0 : 0 ∉ chunk) (hfit : S.m + chunk.length ≤ top)

include h hin h0 hfit

theorem Exact.scan : ∃ (y : Cursor) (k : ℕ),
    lineLoop pattern top (top.toNat + 1) ⟨store S.mem S.m chunk, 0, S.out⟩ =
      lineLoop pattern top (k + 1) y ∧
    y.p + (split (S.input ++ chunk)).2.length = S.m + chunk.length ∧
    y.out = output pattern (split (S.input ++ chunk)).1 ∧
    At y.mem y.p (split (S.input ++ chunk)).2 ∧ 0 ≤ y.p ∧ (y.p = 0 ↔ newline ∉ chunk) ∧
    (Quiet top y.mem (S.m + chunk.length) ↔ Quiet top S.mem (S.m + chunk.length)) := by
  have hm := h.m
  have hsplit := split_append chunk S.input
  obtain ⟨hsuf, hnl⟩ := split_suffix S.input
  have hkept := h.kept
  have hout := h.out
  generalize (split S.input).2 = rest at *
  have hdata : At (store S.mem S.m chunk) 0 (rest ++ chunk) := by
    refine (hkept.congr fun i _ hi => if_neg (by omega)).append ?_
    rw [Int.zero_add, ← hm]
    exact at_store
  have hzero : 0 ∉ rest ++ chunk := fun hc =>
    (mem_append.mp hc).elim (fun hc => hin (hsuf.mem hc)) h0
  have hlen : ((rest ++ chunk).length : ℤ) = S.m + chunk.length := by
    rw [length_append, hm]
    omega
  have hlines := length_split_le (rest ++ chunk)
  obtain ⟨⟨pre, hpre⟩, hnl'⟩ := split_suffix (rest ++ chunk)
  have hprelen := congrArg List.length hpre
  rw [length_append] at hprelen
  obtain ⟨y, hy, hyp, hyout, hyframe⟩ := @lineLoop_data pattern top
    (top.toNat - (split (rest ++ chunk)).1.length + 1) (rest ++ chunk)
    ⟨store S.mem S.m chunk, 0, S.out⟩ (by simp only; omega) hdata hzero
  simp only at hyp hyout hyframe
  have hfuel : top.toNat - (split (rest ++ chunk)).1.length + 1 + (split (rest ++ chunk)).1.length =
      top.toNat + 1 := by
    omega
  rw [hfuel] at hy
  have hp : y.p = 0 + pre.length := by omega
  have hlater : ∀ i, S.m + chunk.length ≤ i → y.mem i = S.mem i := by
    intro i hi
    rw [hyframe i (by omega), store, if_neg (by omega)]
  rw [hsplit]
  refine ⟨y, _, hy, by simp only; omega, ?_, ?_, by omega, ?_, ?_⟩
  · rw [hyout, hout, output_append]
  · rw [← hpre] at hdata
    rw [hp]
    exact hdata.right.congr fun i hi _ => hyframe i (by omega)
  · rw [hp]
    constructor
    · intro hp0 hmem
      have : pre = [] := length_eq_zero_iff.mp (by omega)
      rw [this, nil_append] at hpre
      exact hnl' (by rw [hpre]; exact mem_append_right _ hmem)
    · intro hmem
      have hs : newline ∉ rest ++ chunk := fun hc => (mem_append.mp hc).elim hnl hmem
      rw [split_of_notMem hs] at hprelen
      simp only at hprelen
      omega
  · exact ⟨fun hq => hq.congr fun i hi => (hlater i hi).symm, fun hq => hq.congr hlater⟩

theorem Exact.round_iff (hne : chunk ≠ []) :
    (∃ S', round pattern top S chunk = some S' ∧ Exact pattern S') ↔ Completes top S chunk := by
  obtain ⟨y, k, hloop, hlen, hout, hat, hle, hp, hquiet⟩ := h.scan hin h0 hfit
  have hpos : 0 < chunk.length := length_pos_iff.mpr hne
  have hm := h.m
  have hzero : 0 ∉ (split (S.input ++ chunk)).2 := fun hc =>
    (mem_append.mp ((split_suffix _).1.mem hc)).elim hin h0
  obtain ⟨hyes, hno⟩ := @lineLoop_rest pattern (split (S.input ++ chunk)).2 top k y
    (by omega) hat hzero (split_suffix _).2
  rw [hlen, hquiet] at hyes hno
  constructor
  · rintro ⟨S', hround, hS'⟩
    have hm' := hS'.m
    rw [round, hloop] at hround
    by_cases hq : Quiet top S.mem (S.m + chunk.length)
    · refine ⟨?_, hq⟩
      by_contra hn
      -- the unfinished line is forgotten
      have hp0 := hp.mpr hn
      rw [hyes hq] at hround
      simp only [hp0, if_true, lt_irrefl, if_false, Option.some.injEq] at hround
      subst hround
      simp only at hm'
      omega
    · -- the cursor has gone beyond what was read
      cases hl : lineLoop pattern top (k + 1) y with
      | none =>
        rw [hl] at hround
        cases hround
      | some z =>
        have hz := hno hq z hl
        rw [hl] at hround
        simp only [if_neg (show z.p ≠ 0 by omega), if_pos (show 0 < S.m + chunk.length by omega),
          Option.some.injEq] at hround
        subst hround
        simp only at hm'
        omega
  · rintro ⟨hn, hq⟩
    have hp0 : y.p ≠ 0 := fun hp0 => hp.mp hp0 hn
    refine ⟨⟨memmove (S.m + chunk.length - y.p).toNat y.mem 0 y.p, S.m + chunk.length - y.p, y.out,
      S.input ++ chunk⟩, ?_, ?_, fun i hi => ?_, hout⟩
    · rw [round, hloop, hyes hq]
      simp only [if_neg hp0, if_pos (show 0 < S.m + chunk.length by omega)]
    · simp only
      omega
    · simp only at hi ⊢
      rw [memmove_of_le hle (by omega)]
      exact hat i hi

end round

theorem step_ok_iff {S S' : State} {chunk : List UInt8} :
    step pattern top S chunk = some (.ok S') ↔
      chunk ≠ [] ∧ S.m + chunk.length ≤ bufSize ∧ round pattern top S chunk = some S' := by
  unfold step
  split
  · rename_i hc
    simp only [reduceCtorEq, false_iff]
    rintro ⟨hne, hfit, -⟩
    exact hc.elim hne (by omega)
  · rename_i hc
    obtain ⟨hne, hfit⟩ := not_or.mp hc
    cases round pattern top S chunk with
    | none => simp
    | some S'' => simp [hne, show S.m + chunk.length ≤ bufSize by omega]

theorem round_input {S S' : State} {chunk : List UInt8} (h : round pattern top S chunk = some S') :
    S'.input = S.input ++ chunk := by
  unfold round at h
  dsimp only at h
  split at h
  · cases h
  · rename_i x _
    generalize (if x.p = 0 then 0 else S.m + (chunk.length : ℤ)) = m at h
    split at h <;> exact (Option.some.inj h) ▸ rfl

/-- **`grep` writes the lines that match**, however the input arrives, as long as the reads complete
lines and no newline follows what has been read.  A read for which this is not so leaves something
else than the unfinished line in the buffer. -/
theorem grep_exact (htop : bufSize ≤ top) {S : State}
    (h : Reach (step pattern top) (fun S chunk => 0 ∉ chunk ∧ Completes top S chunk) Begun S) :
    Exact pattern S ∧ ∀ chunk, chunk ≠ [] → 0 ∉ chunk → S.m + chunk.length ≤ bufSize →
      ((∃ S', step pattern top S chunk = some (.ok S') ∧ Exact pattern S') ↔ Completes top S chunk) := by
  obtain ⟨hS, h0⟩ : Exact pattern S ∧ 0 ∉ S.input := by
    refine h.invariant (I := fun S => Exact pattern S ∧ 0 ∉ S.input) (fun S hS => ?_)
      fun S chunk S' hS hok hs => ?_
    · rw [hS.input]
      refine ⟨⟨?_, ?_, ?_⟩, not_mem_nil⟩
      · rw [hS.m, hS.input]
        rfl
      · rw [hS.input]
        exact fun i hi => absurd hi (Nat.not_lt_zero i)
      · rw [hS.out, hS.input]
        rfl
    · obtain ⟨hne, hfit, hround⟩ := step_ok_iff.mp hs
      obtain ⟨S'', hround', hS''⟩ :=
        (hS.1.round_iff hS.2 hok.1 (hfit.trans htop) hne).mpr hok.2
      obtain rfl := Option.some.inj (hround.symm.trans hround')
      rw [round_input hround]
      exact ⟨hS'', fun hc => (mem_append.mp hc).elim hS.2 hok.1⟩
  refine ⟨hS, fun chunk hne h0' hfit => ?_⟩
  rw [← hS.round_iff h0 h0' (hfit.trans htop) hne]
  simp only [step_ok_iff, hne, hfit, ne_eq, not_false_eq_true, true_and]

/-- The state in which `grep` begins first. -/
def fresh : State := ⟨fun _ => 0, 0, [], []⟩

theorem completes_of_strchr {S : State} {chunk : List UInt8} (hn : newline ∈ chunk)
    (h : strchr top S.mem (S.m + chunk.length) = some none) : Completes top S chunk := by
  refine ⟨hn, ?_⟩
  obtain ⟨hq, -⟩ | ⟨-, heq | ⟨q, -, heq⟩⟩ := @strchr_cases S.mem (S.m + chunk.length) top
  · exact hq
  · rw [heq] at h
    cases h
  · rw [heq] at h
    cases h

/-- `grep b`, with `"ab\nc"` and `"b\n"` read. -/
theorem grep_exact_twoReads : ∃ S, Exact [98] S ∧ S.input = [97, 98, 10, 99, 98, 10] ∧
    S.out = [97, 98, 10, 99, 98, 10] := by
  have he : endsIn (step [98] 1024) fresh [[97, 98, 10, 99], [98, 10]] (fun S =>
      decide (S.input = [97, 98, 10, 99, 98, 10] ∧ S.out = [97, 98, 10, 99, 98, 10])) = true := by
    decide +kernel
  have hm : Meets (step [98] 1024) (fun S chunk => 0 ∉ chunk ∧ newline ∈ chunk ∧
      strchr 1024 S.mem (S.m + chunk.length) = some none) fresh [[97, 98, 10, 99], [98, 10]] := by
    decide +kernel
  have hstart : Begun fresh := ⟨rfl, rfl, rfl⟩
  obtain ⟨S, hS, hend⟩ := Reach.of_endsIn hstart he hm
  have hS' : Reach (step [98] 1024) (fun S chunk => 0 ∉ chunk ∧ Completes 1024 S chunk) Begun S :=
    hS.weaken fun S chunk hok => ⟨hok.1, completes_of_strchr hok.2.1 hok.2.2⟩
  exact ⟨S, (grep_exact (Int.le_refl 1024) hS').1, by simpa using hend⟩

/-- Lines that were read before are written again, and a line that arrives in two parts loses the
first. -/
theorem grep_repeats_and_loses :
    endsIn (step [98] 1024) fresh [[97, 97, 98, 10, 98, 10], [98, 10]] (fun S =>
      decide (output [98] (split S.input).1 = [97, 97, 98, 10, 98, 10, 98, 10] ∧
        S.out = [97, 97, 98, 10, 98, 10, 98, 10, 98, 10, 98, 10])) = true ∧
    endsIn (step [97] 1024) fresh [[97, 98], [99, 10]] (fun S =>
      decide (output [97] (split S.input).1 = [97, 98, 99, 10] ∧ S.out = [])) = true := by
  decide +kernel

end Xv6.Grep
