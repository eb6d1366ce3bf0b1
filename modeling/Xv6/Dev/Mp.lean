import Mathlib.Algebra.Order.Ring.Nat
import Mathlib.Tactic.Common

/-!
# The walk over the MP configuration table

`mpconfig` and `mpinit` of `mp.c`.  A table is the memory from `conf` on, and an address is the
distance from it.  The walk is a loop that may not end, so it is given as its rounds: `round` is one
of them, and does nothing once `p` has reached the end.

The step of an entry is its size, whatever is left of the table; the fields of a processor entry and
of an I/O APIC entry are read in any case; processors are registered without a look at `NCPU`; and
after an entry of unknown type the walk stays where it is.  So it is robust exactly if the table
consists of entries of the known types, the last of which may be cut off behind the fields that are
read, with at most `NCPU` processors among them (`walk_robust_iff`).
-/

namespace Xv6.Mp

open Function

/-- `NCPU` -/
def ncpuMax : ℕ := 8

abbrev Table := ℕ → UInt8

/-- `conf->length` -/
def Table.length (t : Table) : ℕ := (t 4).toNat + 256 * (t 5).toNat

def sum (t : Table) (len : ℕ) : UInt8 := (List.range len).foldl (fun s i => s + t i) 0

/-- The tests of `mpconfig`: `"PCMP"`, the version and the checksum. -/
def mpconfig (t : Table) : Bool :=
  t 0 == 80 && t 1 == 67 && t 2 == 77 && t 3 == 80 && (t 6 == 1 || t 6 == 4) && sum t t.length == 0

/-- The variables of `mpinit`, and what has been read so far. -/
structure State where
  p : ℕ
  ncpu : ℕ
  ismp : Bool
  /-- `bcpu - cpus` -/
  bcpu : ℕ
  /-- `cpus[].id` -/
  ids : ℕ → ℕ
  ioapicid : UInt8
  reads : List ℕ

/-- What the loop begins with: `sizeof(struct mpconf)` is 44. -/
def start : State := ⟨44, 0, true, 0, fun _ => 0, 0, []⟩

/-- The body of the loop. -/
def entry (t : Table) (S : State) : State :=
  if t S.p = 0 then  -- MPPROC
    { p := S.p + 20
      ncpu := S.ncpu + 1
      ismp := S.ismp && S.ncpu == (t (S.p + 1)).toNat
      bcpu := if t (S.p + 3) &&& 2 = 0 then S.bcpu else S.ncpu
      ids := update S.ids S.ncpu S.ncpu
      ioapicid := S.ioapicid
      reads := S.p :: (S.p + 1) :: (S.p + 3) :: S.reads }
  else if t S.p = 2 then  -- MPIOAPIC
    { S with p := S.p + 8, ioapicid := t (S.p + 1), reads := S.p :: (S.p + 1) :: S.reads }
  else if t S.p = 1 ∨ t S.p = 3 ∨ t S.p = 4 then  -- MPBUS, MPIOINTR, MPLINTR
    { S with p := S.p + 8, reads := S.p :: S.reads }
  else { S with ismp := false, reads := S.p :: S.reads }

/-- One round of the loop. -/
def round (t : Table) (S : State) : State := if S.p < t.length then entry t S else S

/-- `mpinit`, if its loop ends within `k` rounds; without MP one processor is left. -/
def mpinit (t : Table) (k : ℕ) : Option State :=
  let S := (round t)^[k] start
  if S.p < t.length then none
  else some (if S.ismp then S else { S with ncpu := 1, ioapicid := 0 })

/-- **The walk is robust**: it ends, reads only inside the table, and registers at most `NCPU`
processors. -/
structure Robust (t : Table) : Prop where
  ends : ∃ k, mpinit t k ≠ none
  inside : ∀ k, ∀ a ∈ ((round t)^[k] start).reads, a < t.length
  bounded : ∀ k, ((round t)^[k] start).ncpu ≤ ncpuMax

/-- From `p` to the end there are entries of known types, with `n` processors among them.  The last
may be cut off behind the fields that are read. -/
inductive Entries (t : Table) : ℕ → ℕ → Prop where
  | done {p : ℕ} (h : t.length ≤ p) : Entries t p 0
  | proc {p n : ℕ} (h : p + 3 < t.length) (ht : t p = 0) : Entries t (p + 20) n → Entries t p (n + 1)
  | ioapic {p n : ℕ} (h : p + 1 < t.length) (ht : t p = 2) : Entries t (p + 8) n → Entries t p n
  | other {p n : ℕ} (h : p < t.length) (ht : t p = 1 ∨ t p = 3 ∨ t p = 4) :
      Entries t (p + 8) n → Entries t p n

variable {t : Table} {S : State}

theorem round_of_le (h : t.length ≤ S.p) : ∀ k, (round t)^[k] S = S :=
  iterate_fixed (if_neg (not_lt.mpr h))

theorem round_of_unknown (h : 4 < t S.p) : ∀ k, ((round t)^[k] S).p = S.p
  | 0 => rfl
  | k + 1 => by
    have ih := round_of_unknown h k
    rw [iterate_succ_apply']
    generalize (round t)^[k] S = T at ih ⊢
    rw [← ih] at h ⊢
    have hne : ∀ c ≤ 4, t T.p ≠ c := fun c hc he => absurd (he ▸ h) (UInt8.not_lt.mpr hc)
    rw [round]
    split
    · rw [entry, if_neg (hne 0 (by decide)), if_neg (hne 2 (by decide)), if_neg]
      simp [hne 1 (by decide), hne 3 (by decide), hne 4 (by decide)]
    · rfl

theorem entries_of_ends : ∀ {k : ℕ} {S : State}, t.length ≤ ((round t)^[k] S).p →
    (∀ i, ∀ a ∈ ((round t)^[i] S).reads, a < t.length) →
      ∃ n, Entries t S.p n ∧ ((round t)^[k] S).ncpu = S.ncpu + n
  | 0, S, hend, _ => ⟨0, .done hend, rfl⟩
  | k + 1, S, hend, hin => by
    by_cases hp : t.length ≤ S.p
    · exact ⟨0, .done hp, by rw [round_of_le hp]; rfl⟩
    have hlt := Nat.lt_of_not_le hp
    have hround : round t S = entry t S := if_pos hlt
    have hin' : ∀ i, ∀ a ∈ ((round t)^[i] (entry t S)).reads, a < t.length := by
      intro i
      have := hin (i + 1)
      rwa [iterate_succ_apply, hround] at this
    rw [iterate_succ_apply, hround] at hend ⊢
    obtain ⟨n, hn, hncpu⟩ := entries_of_ends hend hin'
    have hreads := hin' 0
    rw [hncpu]
    rw [iterate_zero_apply] at hreads
    unfold entry at hn hreads ⊢
    by_cases h0 : t S.p = 0
    · rw [if_pos h0] at hn hreads ⊢
      exact ⟨n + 1, .proc (hreads (S.p + 3) (by simp)) h0 hn, add_right_comm ..⟩
    rw [if_neg h0] at hn hreads ⊢
    by_cases h2 : t S.p = 2
    · rw [if_pos h2] at hn hreads ⊢
      exact ⟨n, .ioapic (hreads (S.p + 1) (by simp)) h2 hn, rfl⟩
    rw [if_neg h2] at hn hreads ⊢
    by_cases h1 : t S.p = 1 ∨ t S.p = 3 ∨ t S.p = 4
    · rw [if_pos h1] at hn ⊢
      exact ⟨n, .other hlt h1 hn, rfl⟩
    · -- the walk has stayed where it was, and still has come to the end
      rw [if_neg h1] at hn ⊢
      exact ⟨n, hn, rfl⟩

theorem ends_of_entries {p n : ℕ} (h : Entries t p n) : ∀ {S : State}, S.p = p →
    (∀ a ∈ S.reads, a < t.length) → (∃ k, t.length ≤ ((round t)^[k] S).p) ∧
      ∀ i, (∀ a ∈ ((round t)^[i] S).reads, a < t.length) ∧ ((round t)^[i] S).ncpu ≤ S.ncpu + n := by
  -- the first round, and what is known of the others
  have hnext : ∀ {S S' : State} {n n' : ℕ}, round t S = S' → (∀ a ∈ S.reads, a < t.length) →
      S'.ncpu + n' ≤ S.ncpu + n →
      ((∃ k, t.length ≤ ((round t)^[k] S').p) ∧
        ∀ i, (∀ a ∈ ((round t)^[i] S').reads, a < t.length) ∧ ((round t)^[i] S').ncpu ≤ S'.ncpu + n') →
      (∃ k, t.length ≤ ((round t)^[k] S).p) ∧
        ∀ i, (∀ a ∈ ((round t)^[i] S).reads, a < t.length) ∧ ((round t)^[i] S).ncpu ≤ S.ncpu + n := by
    rintro S S' n n' rfl hS hle ⟨⟨k, hk⟩, hi⟩
    refine ⟨⟨k + 1, hk⟩, fun i => ?_⟩
    cases i with
    | zero => exact ⟨hS, Nat.le_add_right ..⟩
    | succ i => exact ⟨(hi i).1, (hi i).2.trans hle⟩
  induction h with
  | done h =>
    rintro S rfl hS
    refine ⟨⟨0, h⟩, fun i => ?_⟩
    rw [round_of_le h]
    exact ⟨hS, le_refl _⟩
  | @proc p n h ht _ ih =>
    rintro S rfl hS
    have hround : round t S = _ := (if_pos (by omega)).trans (if_pos ht)
    refine hnext hround hS (le_of_eq ?_) (ih rfl ?_)
    · simp only
      omega
    · simp only [List.forall_mem_cons]
      exact ⟨by omega, by omega, h, hS⟩
  | @ioapic p n h ht _ ih =>
    rintro S rfl hS
    have hround : round t S = _ :=
      (if_pos (by omega)).trans ((if_neg (by rw [ht]; decide)).trans (if_pos ht))
    refine hnext hround hS (le_refl _) (ih rfl ?_)
    simp only [List.forall_mem_cons]
    exact ⟨by omega, h, hS⟩
  | @other p n h ht _ ih =>
    rintro S rfl hS
    have h0 : t S.p ≠ 0 := by rcases ht with ht | ht | ht <;> rw [ht] <;> decide
    have h2 : t S.p ≠ 2 := by rcases ht with ht | ht | ht <;> rw [ht] <;> decide
    have hround : round t S = _ :=
      (if_pos h).trans ((if_neg h0).trans ((if_neg h2).trans (if_pos ht)))
    refine hnext hround hS (le_refl _) (ih rfl ?_)
    simp only [List.forall_mem_cons]
    exact ⟨h, hS⟩

theorem mpinit_ne_none {k : ℕ} : mpinit t k ≠ none ↔ t.length ≤ ((round t)^[k] start).p := by
  unfold mpinit
  simp

/-- **The walk is robust if and only if the table consists of known entries**, with at most `NCPU`
processors. -/
theorem walk_robust_iff (t : Table) : Robust t ↔ ∃ n ≤ ncpuMax, Entries t 44 n := by
  constructor
  · rintro ⟨⟨k, hk⟩, hin, hbound⟩
    obtain ⟨n, hn, hncpu⟩ := entries_of_ends (mpinit_ne_none.mp hk) hin
    have := hbound k
    rw [hncpu] at this
    exact ⟨n, (zero_add n) ▸ this, hn⟩
  · rintro ⟨n, hle, hn⟩
    obtain ⟨⟨k, hk⟩, hall⟩ := ends_of_entries hn (S := start) rfl (by simp [start])
    refine ⟨⟨k, mpinit_ne_none.mpr hk⟩, fun k => (hall k).1, fun k => ?_⟩
    exact (hall k).2.trans ((zero_add n).symm ▸ hle)

/-- A table, from its first bytes. -/
def ofBytes (l : List UInt8) : Table := fun i => l.getD i 0

/-- A table with an entry of unknown type, one with a single byte of a processor entry, and one with
nine processors. -/
def badTables : List Table :=
  [ofBytes ([80, 67, 77, 80, 45, 0, 1, 157] ++ List.replicate 36 0 ++ [5]),
    ofBytes ([80, 67, 77, 80, 45, 0, 1, 162] ++ List.replicate 36 0 ++ [0]),
    ofBytes ([80, 67, 77, 80, 224, 0, 1, 239] ++ List.replicate 216 0)]

/-- `mpconfig` accepts them, and the walk is not robust on any: it does not end, it reads outside, it
registers nine processors. -/
theorem walk_not_robust : (∀ t ∈ badTables, mpconfig t = true) ∧
    (∀ t ∈ badTables[0]?, ∀ k, mpinit t k = none) ∧
    (∀ t ∈ badTables[1]?, 47 ∈ ((round t)^[1] start).reads ∧ t.length = 45) ∧
    ∀ t ∈ badTables[2]?, ((round t)^[9] start).ncpu = ncpuMax + 1 := by
  refine ⟨by decide +kernel, ?_, by decide +kernel, by decide +kernel⟩
  rintro t ht k
  obtain rfl : _ = t := Option.some.inj ht
  rw [mpinit, round_of_unknown (by decide +kernel), if_pos (by decide +kernel)]

end Xv6.Mp
