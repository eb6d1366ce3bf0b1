import Xv6.Lib.Handler
import Xv6.User.Calls

/-!
# A call that runs alone

What the functions of `User.Calls` look at when nobody else changes the memory of the
process: the pieces from which the calls are made, each with the addresses that it stays
at.

* `Inside` --- the operation stays in `[0, sz)`; `along_fetchint`, `along_argptr` and the
  other lemmas about functions that take an argument are equivalences, so what a call does
  with its arguments can be followed exactly.

Where a pointer is good is said without reference to the memory that it points into
(`inside_of_accepted`).
-/

namespace Xv6.User

open List Handler Fs
open UInt32 (lt_iff_toNat_lt toNat_add)

def kernbase : ℕ := 0x80000000

/-- What the rest of the kernel answers. -/
abbrev World := (q : Ask) → q.Ans

/-- The world in which nothing is found and everything fails. -/
def silent : World
  | .ofile _ => none
  | .pipeData => none
  | .pipeRoom _ => false
  | .inode _ => ⟨.file, 0, 0, 0⟩
  | .byte _ => 0
  | .getc _ => none
  | .stati => ⟨0, 0, 0, 0, 0⟩
  | .pipealloc => none
  | .isDir _ _ => false
  | .dirlookup _ _ => false
  | .linkable => false
  | .loads => false
  | .copyout _ => false
  | .growproc _ => -1
  | .commit => -1
  | .rest => -1

/-- The bytes that the kernel finds at an address. -/
abbrev Mem := UInt32 → UInt8

/-- `*(int*)a` -/
def Mem.word (m : Mem) (a : UInt32) : UInt32 :=
  (m a).toUInt32 ||| ((m (a + 1)).toUInt32 <<< 8) ||| ((m (a + 2)).toUInt32 <<< 16) |||
    ((m (a + 3)).toUInt32 <<< 24)

def Mem.write (m : Mem) (a : UInt32) (bs : List UInt8) : Mem := fun x =>
  (bs[(x - a).toNat]?).getD (m x)

/-- A call that has the memory of its process to itself. -/
def handler (W : World) (sz : UInt32) : Handler Op Op.Ans Mem where
  answer
    | .size, _ => sz
    | .word a, m => m.word a
    | .scan _ a, m => m a
    | .fits i size, _ => decide (i + size ≤ sz)
    | .load a, m => m a
    | .store _ _, _ => ()
    | .ask q, _ => W q
  effect
    | .store a bs, m => m.write a bs
    | _, m => m

/-- The operation stays in `[0, sz)`. -/
def Inside (sz : UInt32) (e : Op) : Prop := ∀ a ∈ e.addresses, a < sz

/-- The addresses that the call looks at or changes. -/
def touched (W : World) (sz : UInt32) (m : Mem) (c : Syscall) (esp : UInt32) : List UInt32 :=
  ((handler W sz).trace (c.code esp) m).flatMap Op.addresses

section

variable {α : Type} {W : World} {sz : UInt32} {m : Mem}

theorem touched_iff_along {c : Syscall} {esp : UInt32} :
    (∀ a ∈ touched W sz m c esp, a < sz) ↔
      (handler W sz).Along (Inside sz) (fun _ _ => True) (c.code esp) m := by
  rw [along_iff_trace]
  constructor
  · intro h e he a ha
    exact h a (mem_flatMap.mpr ⟨e, he, ha⟩)
  · intro h a ha
    obtain ⟨e, he, hae⟩ := mem_flatMap.mp ha
    exact h e he a hae

/-! ## Addresses -/

theorem toNat_offset {p : UInt32} {j : ℕ} (h : p.toNat + j < 2 ^ 32) :
    (p + UInt32.ofNat j).toNat = p.toNat + j := by
  rw [toNat_add, UInt32.toNat_ofNat', Nat.add_mod_mod, Nat.mod_eq_of_lt h]

theorem offset_lt {p : UInt32} {j k : ℕ} (hk : p.toNat + k ≤ sz.toNat) (hj : j < k) :
    p + UInt32.ofNat j < sz := by
  have := sz.toNat_lt
  rw [lt_iff_toNat_lt, toNat_offset (by omega)]
  omega

theorem inside_of_accepted (hsz : sz.toNat < kernbase) {p n : UInt32} (hp : p < sz)
    (hn : p + n ≤ sz) : p.toNat + (asInt n).toNat ≤ sz.toNat := by
  rw [lt_iff_toNat_lt] at hp
  rw [UInt32.le_iff_toNat_le, toNat_add] at hn
  unfold kernbase at hsz
  unfold asInt
  split
  · omega
  · have := n.toNat_lt
    omega

/-! ## Single operations -/

theorem along_size {Q : UInt32 → Mem → Prop} :
    (handler W sz).Along (Inside sz) Q (op .size) m ↔ Q sz m := by
  simp [op, Prog.perform, Inside, Op.addresses, handler]

theorem along_fits {Q : Bool → Mem → Prop} {i size : UInt32} :
    (handler W sz).Along (Inside sz) Q (op (.fits i size)) m ↔ Q (decide (i + size ≤ sz)) m := by
  simp [op, Prog.perform, Inside, Op.addresses, handler]

theorem along_ask {q : Ask} {Q : q.Ans → Mem → Prop} :
    (handler W sz).Along (Inside sz) Q (ask q) m ↔ Q (W q) m := by
  simp [ask, Prog.perform, Inside, Op.addresses, handler]

theorem along_load {Q : UInt8 → Mem → Prop} {a : UInt32} :
    (handler W sz).Along (Inside sz) Q (op (.load a)) m ↔ a < sz ∧ Q (m a) m := by
  simp [op, Prog.perform, Inside, Op.addresses, handler]

theorem along_scan {Q : UInt8 → Mem → Prop} {s a : UInt32} :
    (handler W sz).Along (Inside sz) Q (op (.scan s a)) m ↔ a < sz ∧ Q (m a) m := by
  simp [op, Prog.perform, Inside, Op.addresses, handler]

theorem along_store {Q : Unit → Mem → Prop} {a : UInt32} {bs : List UInt8} :
    (handler W sz).Along (Inside sz) Q (op (.store a bs)) m ↔
      (∀ j < bs.length, a + UInt32.ofNat j < sz) ∧ Q () (m.write a bs) := by
  simp [op, Prog.perform, Inside, Op.addresses, handler]

theorem along_word {Q : UInt32 → Mem → Prop} {a : UInt32} :
    (handler W sz).Along (Inside sz) Q (op (.word a)) m ↔
      (∀ j < 4, a + UInt32.ofNat j < sz) ∧ Q (m.word a) m := by
  simp [op, Prog.perform, Inside, Op.addresses, handler]

/-! ## `syscall.c` -/

/-- What `fetchint` fetches. -/
def fetched (sz : UInt32) (m : Mem) (addr : UInt32) : Option UInt32 :=
  if addr < sz ∧ addr + 4 ≤ sz then some (m.word addr) else none

variable {Q : Option UInt32 → Mem → Prop}

theorem along_fetchint (hsz : sz.toNat < kernbase) {addr : UInt32} :
    (handler W sz).Along (Inside sz) Q (fetchint addr) m ↔ Q (fetched sz m addr) m := by
  unfold fetchint fetched
  rw [along_bind, along_size]
  by_cases h : addr < sz
  · rw [if_neg (UInt32.not_le.mpr h), along_bind, along_size]
    by_cases h4 : addr + 4 ≤ sz
    · rw [if_neg (UInt32.not_lt.mpr h4), along_bind, along_word, if_pos ⟨h, h4⟩, along_pure]
      refine and_iff_right fun j hj => offset_lt (k := 4) ?_ hj
      exact inside_of_accepted (n := 4) hsz h h4
    · rw [if_pos (UInt32.not_le.mp h4), if_neg fun hc => h4 hc.2, along_pure]
  · rw [if_pos (UInt32.not_lt.mp h), if_neg fun hc => h hc.1, along_pure]

/-- What `argint` fetches. -/
def arg (sz : UInt32) (m : Mem) (esp : UInt32) (n : ℕ) : Option UInt32 :=
  fetched sz m (esp + 4 + 4 * UInt32.ofNat n)

theorem along_argint (hsz : sz.toNat < kernbase) {esp : UInt32} {n : ℕ} :
    (handler W sz).Along (Inside sz) Q (argint esp n) m ↔ Q (arg sz m esp n) m :=
  along_fetchint hsz

/-- The open file that `argfd` finds. -/
def fileArg (W : World) (sz : UInt32) (m : Mem) (esp : UInt32) (n : ℕ) : Option OpenFile :=
  match arg sz m esp n with
  | none => none
  | some fd => if asInt fd < 0 ∨ (nofile : ℤ) ≤ asInt fd then none else W (.ofile fd)

theorem along_argfd (hsz : sz.toNat < kernbase) {Q : Option OpenFile → Mem → Prop} {esp : UInt32}
    {n : ℕ} :
    (handler W sz).Along (Inside sz) Q (argfd esp n) m ↔ Q (fileArg W sz m esp n) m := by
  unfold argfd fileArg
  rw [along_bind, along_argint hsz]
  cases arg sz m esp n with
  | none => rfl
  | some fd =>
    dsimp only
    split
    · rfl
    · exact along_ask

/-- The pointer that `argptr` accepts. -/
def ptrArg (sz : UInt32) (m : Mem) (esp : UInt32) (n : ℕ) (size : UInt32) : Option UInt32 :=
  match arg sz m esp n with
  | none => none
  | some i => if i < sz ∧ i + size ≤ sz then some i else none

theorem along_argptr (hsz : sz.toNat < kernbase) {esp : UInt32} {n : ℕ} {size : UInt32} :
    (handler W sz).Along (Inside sz) Q (argptr esp n size) m ↔ Q (ptrArg sz m esp n size) m := by
  unfold argptr ptrArg
  rw [along_bind, along_argint hsz]
  cases arg sz m esp n with
  | none => rfl
  | some i =>
    dsimp only
    rw [along_bind, along_size]
    by_cases h : i < sz
    · rw [if_neg (UInt32.not_le.mpr h), along_bind, along_fits]
      by_cases hn : i + size ≤ sz
      · rw [if_pos (decide_eq_true hn), if_pos ⟨h, hn⟩, along_pure]
      · rw [if_neg (by simpa using hn), if_neg fun hc => hn hc.2, along_pure]
    · rw [if_pos (UInt32.not_lt.mp h), if_neg fun hc => h hc.1, along_pure]

theorem accepted_of_ptrArg {esp size p : UInt32} {n : ℕ}
    (h : ptrArg sz m esp n size = some p) : p < sz ∧ p + size ≤ sz := by
  unfold ptrArg at h
  split at h
  · cases h
  · split at h
    · rename_i hc
      cases h
      exact hc
    · cases h

/-- A null byte follows below `sz`. -/
def Ended (sz : UInt32) (m : Mem) (p : UInt32) : Prop :=
  ∃ e : UInt32, p.toNat ≤ e.toNat ∧ e < sz ∧ m e = 0

theorem Ended.lt {p : UInt32} (h : Ended sz m p) : p < sz := by
  obtain ⟨e, hpe, he, -⟩ := h
  rw [lt_iff_toNat_lt] at he ⊢
  omega

theorem Ended.toNat_succ {p : UInt32} (h : Ended sz m p) : (p + 1).toNat = p.toNat + 1 := by
  have hlt := h.lt
  have := sz.toNat_lt
  rw [lt_iff_toNat_lt] at hlt
  exact toNat_offset (j := 1) (by omega)

theorem Ended.succ {p : UInt32} (h : Ended sz m p) (hp : m p ≠ 0) : Ended sz m (p + 1) := by
  have hnext := h.toNat_succ
  obtain ⟨e, hpe, he, h0⟩ := h
  refine ⟨e, ?_, he, h0⟩
  have hne : p.toNat ≠ e.toNat := by
    intro heq
    rw [UInt32.toNat_inj.mp heq] at hp
    exact hp h0
  omega

theorem along_fetchstrFrom {s : UInt32} :
    ∀ (k : ℕ) {a : UInt32}, a.toNat + k ≤ sz.toNat → s.toNat ≤ a.toNat →
      (∀ r, (∀ len, r = some len → Ended sz m s) → Q r m) →
      (handler W sz).Along (Inside sz) Q (fetchstrFrom s k a) m
  | 0, _, _, _, hQ => by
    refine hQ none fun len hlen => ?_
    cases hlen
  | k + 1, a, hk, hs, hQ => by
    have hlt : a < sz := by
      rw [lt_iff_toNat_lt]
      omega
    have := sz.toNat_lt
    have hnext : (a + 1).toNat = a.toNat + 1 := toNat_offset (j := 1) (by omega)
    rw [fetchstrFrom, along_bind, along_scan]
    refine ⟨hlt, ?_⟩
    split
    · rename_i h0
      exact hQ _ fun len _ => ⟨a, hs, hlt, h0⟩
    · exact along_fetchstrFrom k (by omega) (by omega) hQ

theorem along_fetchstr {addr : UInt32} (hQ : ∀ r, (∀ len, r = some len → Ended sz m addr) → Q r m) :
    (handler W sz).Along (Inside sz) Q (fetchstr addr) m := by
  unfold fetchstr
  rw [along_bind, along_size]
  split
  · refine hQ none fun len hlen => ?_
    cases hlen
  · rename_i h
    have hlt := UInt32.not_le.mp h
    rw [lt_iff_toNat_lt] at hlt
    rw [along_bind, along_size]
    exact along_fetchstrFrom _ (by omega) le_rfl hQ

theorem along_argstr (hsz : sz.toNat < kernbase) {esp : UInt32} {n : ℕ}
    (hQ : ∀ r, (∀ p, r = some p → Ended sz m p) → Q r m) :
    (handler W sz).Along (Inside sz) Q (argstr esp n) m := by
  unfold argstr
  rw [along_bind, along_argint hsz]
  cases arg sz m esp n with
  | none =>
    refine hQ none fun p hp => ?_
    cases hp
  | some addr =>
    rw [along_bind]
    refine along_fetchstr fun r hr => ?_
    cases r with
    | none =>
      refine hQ none fun p hp => ?_
      cases hp
    | some len =>
      refine hQ (some addr) fun p hp => ?_
      cases hp
      exact hr len rfl

/-! ## Files -/

theorem along_loads {Q : Unit → Mem → Prop} :
    ∀ (k : ℕ) {a : UInt32}, a.toNat + k ≤ sz.toNat → Q () m →
      (handler W sz).Along (Inside sz) Q (loads k a) m
  | 0, _, _, hQ => hQ
  | k + 1, a, hk, hQ => by
    have := sz.toNat_lt
    have hnext : (a + 1).toNat = a.toNat + 1 := toNat_offset (j := 1) (by omega)
    rw [loads, along_bind, along_load]
    refine ⟨?_, along_loads k (by omega) hQ⟩
    rw [lt_iff_toNat_lt]
    omega

theorem along_store_one {Q : Unit → Mem → Prop} {a : UInt32} {b : UInt8} (ha : a < sz)
    (hQ : ∀ m', Q () m') : (handler W sz).Along (Inside sz) Q (op (.store a [b])) m := by
  rw [along_store]
  refine ⟨fun j hj => ?_, hQ _⟩
  rw [length_singleton, Nat.lt_one_iff] at hj
  rw [hj]
  simpa using ha

theorem along_stores {Q : Unit → Mem → Prop} (hQ : ∀ m', Q () m') :
    ∀ (bs : List UInt8) {a : UInt32} {m : Mem}, a.toNat + bs.length ≤ sz.toNat →
      (handler W sz).Along (Inside sz) Q (stores bs a) m
  | [], _, m, _ => hQ m
  | b :: bs, a, m, hk => by
    rw [length_cons] at hk
    have := sz.toNat_lt
    have hnext : (a + 1).toNat = a.toNat + 1 := toNat_offset (j := 1) (by omega)
    rw [stores, along_bind]
    refine along_store_one ?_ fun m' => along_stores hQ bs (by omega)
    rw [lt_iff_toNat_lt]
    omega

theorem along_piperead {addr n : UInt32} (h : addr.toNat + (asInt n).toNat ≤ sz.toNat) :
    (handler W sz).Along (Inside sz) (fun _ _ => True) (piperead addr n) m := by
  unfold piperead
  rw [along_bind, along_ask]
  cases W .pipeData with
  | none => trivial
  | some data =>
    dsimp only
    rw [along_bind]
    refine along_stores (fun _ => trivial) _ ?_
    have := length_take_le (asInt n).toNat data
    omega

theorem along_pipewriteFrom {addr : UInt32} {Q : Bool → Mem → Prop} (hQ : ∀ b, Q b m) :
    ∀ (k i : ℕ), addr.toNat + (i + k) ≤ sz.toNat →
      (handler W sz).Along (Inside sz) Q (pipewriteFrom addr k i) m
  | 0, _, _ => hQ _
  | k + 1, i, hk => by
    rw [pipewriteFrom, along_bind, along_ask]
    split
    · rw [along_bind, along_load]
      exact ⟨offset_lt hk (by omega), along_pipewriteFrom hQ k (i + 1) (by omega)⟩
    · exact hQ _

theorem along_pipewrite {addr n : UInt32} (h : addr.toNat + (asInt n).toNat ≤ sz.toNat) :
    (handler W sz).Along (Inside sz) (fun _ _ => True) (pipewrite addr n) m := by
  unfold pipewrite
  rw [along_bind]
  refine along_pipewriteFrom (fun b => ?_) _ _ (by omega)
  split <;> trivial

theorem along_consolereadFrom {dst : UInt32} {Q : Option ℕ → Mem → Prop} (hQ : ∀ r m', Q r m') :
    ∀ (k i : ℕ) {m : Mem}, dst.toNat + (i + k) ≤ sz.toNat →
      (handler W sz).Along (Inside sz) Q (consolereadFrom dst k i) m
  | 0, _, _, _ => hQ _ _
  | k + 1, i, m, hk => by
    rw [consolereadFrom, along_bind, along_ask]
    cases W (.getc i) with
    | none => exact hQ _ _
    | some c =>
      dsimp only
      split
      · exact hQ _ _
      · rw [along_bind]
        refine along_store_one (offset_lt hk (by omega)) fun m' => ?_
        split
        · exact hQ _ _
        · exact along_consolereadFrom hQ k (i + 1) (by omega)

theorem along_consoleread {dst n : UInt32} (h : dst.toNat + (asInt n).toNat ≤ sz.toNat) :
    (handler W sz).Along (Inside sz) (fun _ _ => True) (consoleread dst n) m := by
  unfold consoleread
  rw [along_bind]
  refine along_consolereadFrom (fun r m' => ?_) _ _ (by omega)
  cases r <;> trivial

theorem along_readiFrom :
    ∀ (k : ℕ) {dst off : UInt32} {m : Mem}, dst < sz →
      ((handler W sz).Along (Inside sz) (fun _ _ => True) (readiFrom k dst off) m ↔
        dst.toNat + k ≤ sz.toNat)
  | 0, dst, off, m, hdst => by
    rw [lt_iff_toNat_lt] at hdst
    exact iff_of_true trivial (by omega)
  | k + 1, dst, off, m, hdst => by
    have := sz.toNat_lt
    have hlt := hdst
    rw [lt_iff_toNat_lt] at hlt
    have hnext : (dst + 1).toNat = dst.toNat + 1 := toNat_offset (j := 1) (by omega)
    rw [readiFrom, along_bind, along_ask, along_bind, along_store]
    rw [and_iff_right fun j hj => ?_]
    · rcases Nat.lt_or_ge (dst.toNat + 1) sz.toNat with hin | hout
      · rw [along_readiFrom k (by rw [lt_iff_toNat_lt]; omega), hnext]
        omega
      · cases k with
        | zero => exact iff_of_true trivial (by omega)
        | succ k =>
          -- the next byte is the first one outside
          refine iff_of_false ?_ (by omega)
          rw [readiFrom, along_bind, along_ask, along_bind, along_store]
          intro h
          have h0 := h.1 0 (by simp)
          rw [lt_iff_toNat_lt, toNat_offset (by omega)] at h0
          omega
    · rw [length_singleton, Nat.lt_one_iff] at hj
      rw [hj]
      simpa using hdst

/-- The number of bytes that `readi` copies from an inode that is no device. -/
def readLength (ip : Inode) (n : UInt32) : ℕ :=
  if ip.off > ip.size ∨ ip.off + n < ip.off then 0 else (clip ip n).toNat

theorem along_readi {dst n : UInt32} (hdst : dst < sz)
    (h : dst.toNat + (asInt n).toNat ≤ sz.toNat) :
    (handler W sz).Along (Inside sz) (fun _ _ => True) (readi dst n) m ↔
      ((W (.inode 0)).type ≠ .dev → dst.toNat + readLength (W (.inode 0)) n ≤ sz.toNat) := by
  unfold readi readLength
  rw [along_bind, along_ask]
  split
  · rename_i hdev
    refine iff_of_true ?_ (absurd hdev)
    split
    · exact along_consoleread h
    · trivial
  · rename_i hdev
    rw [imp_iff_right hdev]
    split
    · rw [lt_iff_toNat_lt] at hdst
      exact iff_of_true trivial (by omega)
    · rw [along_bind, ← along_readiFrom _ hdst]
      rfl

theorem along_writei {src : UInt32} {i n : ℕ} {Q : Bool → Mem → Prop} (hQ : ∀ b, Q b m)
    (hn : n < 2 ^ 31) (h : src.toNat + n ≤ sz.toNat) :
    (handler W sz).Along (Inside sz) Q (writei src i n) m := by
  have hint : (asInt (UInt32.ofNat n)).toNat = n := by
    unfold asInt
    rw [UInt32.toNat_ofNat', Nat.mod_eq_of_lt (by omega), if_pos hn]
    rfl
  unfold writei
  rw [along_bind, along_ask]
  dsimp only
  split
  · split
    · rw [along_bind, consolewrite, along_bind]
      exact along_loads _ (by omega) (hQ _)
    · exact hQ _
  · split
    · exact hQ _
    · split
      · exact hQ _
      · rw [along_bind]
        exact along_loads _ h (hQ _)

theorem along_filewriteFrom {addr : UInt32} {Q : ℕ → Mem → Prop} (hQ : ∀ i, Q i m) :
    ∀ (k left i : ℕ), addr.toNat + (i + left) ≤ sz.toNat →
      (handler W sz).Along (Inside sz) Q (filewriteFrom addr k left i) m
  | 0, _, _, _ => hQ _
  | k + 1, left, i, h => by
    have hmax : maxWrite < 2 ^ 31 := by decide
    have := sz.toNat_lt
    rw [filewriteFrom]
    split
    · exact hQ _
    · rw [along_bind]
      have haddr : (addr + UInt32.ofNat i).toNat = addr.toNat + i := toNat_offset (by omega)
      refine along_writei (fun b => ?_) (by omega) (by omega)
      split
      · exact along_filewriteFrom hQ k _ _ (by omega)
      · exact hQ _

theorem along_filewrite {f : OpenFile} {addr n : UInt32}
    (h : addr.toNat + (asInt n).toNat ≤ sz.toNat) :
    (handler W sz).Along (Inside sz) (fun _ _ => True) (filewrite f addr n) m := by
  unfold filewrite
  split
  · trivial
  · cases f.type with
    | none => trivial
    | pipe => exact along_pipewrite h
    | inode =>
      dsimp only
      rw [along_bind]
      refine along_filewriteFrom (fun i => ?_) _ _ _ (by omega)
      split <;> trivial

theorem along_store_field {Q : Unit → Mem → Prop} {a : UInt32} {bs : List UInt8} (o : ℕ)
    {k : ℕ} (hk : a.toNat + k ≤ sz.toNat) (ho : o + bs.length ≤ k) (hQ : ∀ m', Q () m') :
    (handler W sz).Along (Inside sz) Q (op (.store (a + UInt32.ofNat o) bs)) m := by
  rw [along_store]
  refine ⟨fun j hj => ?_, hQ _⟩
  rw [UInt32.add_assoc, ← UInt32.ofNat_add]
  exact offset_lt hk (by omega)

theorem along_filestat {f : OpenFile} {st : UInt32} (h : st.toNat + 20 ≤ sz.toNat) :
    (handler W sz).Along (Inside sz) (fun _ _ => True) (filestat f st) m := by
  unfold filestat
  split
  · rw [along_bind, along_ask, along_bind, stati, along_bind]
    refine along_store_field 4 h (by simp [bytesOf]) fun _ => ?_
    rw [along_bind]
    refine along_store_field 8 h (by simp [bytesOf]) fun _ => ?_
    rw [along_bind, ← UInt32.add_zero st]
    refine along_store_field 0 h (by simp [bytesOf]) fun _ => ?_
    rw [along_bind, UInt32.add_zero]
    refine along_store_field 12 h (by simp [bytesOf]) fun _ => ?_
    exact along_store_field 16 h (by simp [bytesOf]) fun _ => trivial
  · trivial

/-! ## Paths -/

theorem along_skipWhile {p : UInt8 → Bool} (hp : p 0 = false) {Q : UInt32 → Mem → Prop} :
    ∀ (k : ℕ) {a : UInt32}, Ended sz m a →
      (∀ e, Ended sz m e → a.toNat ≤ e.toNat → Q e m) →
      (handler W sz).Along (Inside sz) Q (skipWhile p k a) m
  | 0, _, ha, hQ => hQ _ ha le_rfl
  | k + 1, a, ha, hQ => by
    rw [skipWhile, along_bind, along_load]
    refine ⟨ha.lt, ?_⟩
    split
    · rename_i hpa
      have hne : m a ≠ 0 := by
        intro h0
        rw [h0, hp] at hpa
        cases hpa
      refine along_skipWhile hp k (ha.succ hne) fun e he hle => hQ e he ?_
      rw [ha.toNat_succ] at hle
      omega
    · exact hQ _ ha le_rfl

theorem toNat_sub_of_le {a e : UInt32} (h : a.toNat ≤ e.toNat) :
    (e - a).toNat = e.toNat - a.toNat := by
  have := e.toNat_lt
  rw [UInt32.toNat_sub]
  omega

theorem along_skipelem {path : UInt32} (h : Ended sz m path)
    (hQ : ∀ r, (∀ p, r = some p → Ended sz m p) → Q r m) :
    (handler W sz).Along (Inside sz) Q (skipelem path) m := by
  unfold skipelem
  rw [along_bind]
  refine along_skipWhile (by decide) _ h fun s hs _ => ?_
  rw [along_bind, along_load]
  refine ⟨hs.lt, ?_⟩
  split
  · refine hQ none fun p hp => ?_
    cases hp
  · rw [along_bind]
    refine along_skipWhile (by decide) _ hs fun e he hse => ?_
    rw [along_bind]
    have hlen := toNat_sub_of_le hse
    have hlt := he.lt
    rw [lt_iff_toNat_lt] at hlt
    refine along_loads _ (by omega) ?_
    rw [along_bind]
    refine along_skipWhile (by decide) _ he fun next hnext _ => ?_
    refine hQ (some next) fun p hp => ?_
    cases hp
    exact hnext

theorem along_namexFrom {w : ℕ} {parent : Bool} {Q : Bool → Mem → Prop} (hQ : ∀ b, Q b m) :
    ∀ (k : ℕ) {path : UInt32}, Ended sz m path →
      (handler W sz).Along (Inside sz) Q (namexFrom w parent k path) m
  | 0, _, _ => hQ _
  | k + 1, path, h => by
    rw [namexFrom, along_bind]
    refine along_skipelem h fun r hr => ?_
    cases r with
    | none => exact hQ _
    | some next =>
      have hnext := hr next rfl
      dsimp only
      rw [along_bind, along_ask]
      split
      · rw [along_bind, along_load]
        refine ⟨hnext.lt, ?_⟩
        split
        · exact hQ _
        · rw [along_bind, along_ask]
          split
          · exact along_namexFrom hQ k hnext
          · exact hQ _
      · exact hQ _

theorem along_namex {w : ℕ} {parent : Bool} {path : UInt32} (h : Ended sz m path)
    {Q : Bool → Mem → Prop} (hQ : ∀ b, Q b m) :
    (handler W sz).Along (Inside sz) Q (namex w path parent) m := by
  unfold namex
  rw [along_bind, along_load]
  exact ⟨h.lt, along_namexFrom hQ _ h⟩

theorem along_strlen {a : UInt32} (h : Ended sz m a) {Q : ℕ → Mem → Prop}
    (hQ : ∀ n, a.toNat + n < sz.toNat → Q n m) :
    (handler W sz).Along (Inside sz) Q (strlen a) m := by
  unfold strlen
  rw [along_bind]
  refine along_skipWhile (by decide) _ h fun e he hle => hQ _ ?_
  have hlt := he.lt
  rw [lt_iff_toNat_lt] at hlt
  rw [toNat_sub_of_le hle]
  omega

theorem along_copyArgs {Q : Bool → Mem → Prop} (hQ : ∀ b, Q b m) :
    ∀ (as : List UInt32) (i : ℕ), (∀ a ∈ as, Ended sz m a) →
      (handler W sz).Along (Inside sz) Q (copyArgs i as) m
  | [], _, _ => hQ _
  | a :: as, i, h => by
    have ha := h a mem_cons_self
    rw [copyArgs, along_bind]
    refine along_strlen ha fun _ _ => ?_
    rw [along_bind]
    refine along_strlen ha fun n hn => ?_
    rw [along_bind]
    refine along_loads _ (by omega) ?_
    rw [along_bind, along_ask]
    split
    · exact along_copyArgs hQ as (i + 1) fun b hb => h b (mem_cons_of_mem _ hb)
    · exact hQ _

theorem along_lastElem {Q : UInt32 → Mem → Prop} (hQ : ∀ a, Ended sz m a → Q a m) :
    ∀ (k : ℕ) {s last : UInt32}, Ended sz m s → Ended sz m last →
      (handler W sz).Along (Inside sz) Q (lastElem k s last) m
  | 0, _, _, _, hlast => hQ _ hlast
  | k + 1, s, last, hs, hlast => by
    rw [lastElem, along_bind, along_load]
    refine ⟨hs.lt, ?_⟩
    split
    · exact hQ _ hlast
    · rename_i hne
      refine along_lastElem hQ k (hs.succ hne) ?_
      split
      · exact hs.succ hne
      · exact hlast

theorem along_safestrcpy {Q : Unit → Mem → Prop} (hQ : Q () m) :
    ∀ (k : ℕ) {t : UInt32}, Ended sz m t →
      (handler W sz).Along (Inside sz) Q (safestrcpy k t) m
  | 0, _, _ => hQ
  | k + 1, t, h => by
    rw [safestrcpy, along_bind, along_load]
    refine ⟨h.lt, ?_⟩
    split
    · exact hQ
    · rename_i hne
      exact along_safestrcpy hQ k (h.succ hne)

theorem along_exec {path : UInt32} {argv : List UInt32} (hpath : Ended sz m path)
    (hargv : ∀ a ∈ argv, Ended sz m a) :
    (handler W sz).Along (Inside sz) (fun _ _ => True) (exec path argv) m := by
  unfold exec
  rw [along_bind]
  refine along_namex hpath fun b => ?_
  split
  · rw [along_bind, along_ask]
    split
    · rw [along_bind]
      refine along_copyArgs (fun b => ?_) argv 0 hargv
      split
      · rw [along_bind]
        refine along_lastElem (fun last hlast => ?_) _ hpath hpath
        rw [along_bind]
        exact along_safestrcpy (along_ask.mpr trivial) _ hlast
      · trivial
    · trivial
  · trivial

theorem along_fetchArgv (hsz : sz.toNat < kernbase) {uargv : UInt32} :
    ∀ (k i : ℕ) {Q : Option (List UInt32) → Mem → Prop},
      (∀ r, (∀ argv, r = some argv → ∀ a ∈ argv, Ended sz m a) → Q r m) →
      (handler W sz).Along (Inside sz) Q (fetchArgv uargv k i) m
  | 0, _, _, hQ => by
    refine hQ none fun argv h => ?_
    cases h
  | k + 1, i, Q, hQ => by
    have hnone : Q none m := by
      refine hQ none fun argv h => ?_
      cases h
    rw [fetchArgv, along_bind, along_fetchint hsz]
    cases fetched sz m (uargv + 4 * UInt32.ofNat i) with
    | none => exact hnone
    | some uarg =>
      dsimp only
      split
      · refine hQ (some []) fun argv h a ha => ?_
        cases h
        cases ha
      · rw [along_bind]
        refine along_fetchstr fun r hr => ?_
        cases r with
        | none => exact hnone
        | some len =>
          dsimp only
          rw [along_bind]
          refine along_fetchArgv hsz k (i + 1) fun r' hr' => ?_
          cases r' with
          | none => exact hnone
          | some argv =>
            refine hQ (some (uarg :: argv)) fun argv' h => ?_
            cases h
            exact forall_mem_cons.mpr ⟨hr len rfl, hr' argv rfl⟩

end

end Xv6.User
