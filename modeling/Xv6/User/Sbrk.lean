import Mathlib.Data.Fintype.Basic
import Xv6.User.Shared

/-!
# `sbrk`, called by several threads

`sys_sbrk` reads `proc->sz` for the address that it returns; `growproc` reads it again,
grows or shrinks the page directory while it has `ptable.lock`, and stores the new size
after the release.  The four accesses are steps of their own (`Act`), so that the calls of
several threads may come between each other.

One call after the other, `serial` is what the calls do and return.  With threads that is not
what happens: a call may work on a size that is no longer that of the process, and then the
update of another one is lost (`sbrk_loses_update`), or `mappages` panics.
-/

namespace Xv6.User.Sbrk

open Function Transition

/-- A call that has succeeded, with what it has returned. -/
structure Call where
  n : UInt32
  addr : UInt32
  deriving DecidableEq

/-- How far a thread has come in `sys_sbrk`. -/
inductive Phase where
  | idle
  /-- `addr = proc->sz` -/
  | called (n addr : UInt32)
  /-- `sz = proc->sz`, in `growproc`. -/
  | sized (n addr sz : UInt32)
  /-- The page directory has changed, and `sz` is to be stored. -/
  | changed (n addr sz : UInt32)
  deriving DecidableEq

/-- The thread is about to store a size. -/
def Phase.storing : Phase → Bool
  | .changed _ _ _ => true
  | _ => false

/-- A process with several threads. -/
structure Sys (ι : Type) where
  pgdir : Space
  sz : UInt32
  thread : ι → Phase
  /-- The calls that have succeeded, in the order in which they returned. -/
  returned : List Call

/-- The accesses of a call. -/
inductive Act (ι : Type) where
  | sbrk (t : ι) (n : UInt32)
  | read (t : ι)
  /-- The critical section, when `avail` pages can be had. -/
  | pages (t : ι) (avail : ℕ)
  | store (t : ι)

variable {ι : Type} [DecidableEq ι]

/-- Change one thread. -/
def Sys.put (S : Sys ι) (t : ι) (ph : Phase) : Sys ι :=
  { S with thread := update S.thread t ph }

@[simp] theorem Sys.put_self (S : Sys ι) (t : ι) (ph : Phase) : (S.put t ph).thread t = ph :=
  update_self _ _ _

theorem Sys.put_of_ne {S : Sys ι} {t u : ι} {ph : Phase} (h : u ≠ t) :
    (S.put t ph).thread u = S.thread u :=
  update_of_ne h _ _

/-- One step. -/
def step : StepFn (Sys ι) (Act ι) VmPanic
  | S, .sbrk t n =>
    match S.thread t with
    | .idle => some (.ok (S.put t (.called n S.sz)))
    | _ => none
  | S, .read t =>
    match S.thread t with
    | .called n addr => some (.ok (S.put t (.sized n addr S.sz)))
    | _ => none
  | S, .pages t avail =>
    match S.thread t with
    | .sized n addr sz =>
      match growproc S.pgdir avail sz n with
      | none => some (.error .remap)
      -- the call returns `-1`
      | some (d, none) => some (.ok ({ S with pgdir := d }.put t .idle))
      | some (d, some sz') => some (.ok ({ S with pgdir := d }.put t (.changed n addr sz')))
    | _ => none
  | S, .store t =>
    match S.thread t with
    | .changed n addr sz =>
      some (.ok { S.put t .idle with sz := sz, returned := S.returned ++ [⟨n, addr⟩] })
    | _ => none

/-- The pages of the user half: as many as a call can ask for. -/
def userPages : ℕ := kernbase / pgsize

/-- What successful calls leave, when they are made one after the other; nothing if one of
them fails, or returns something else. -/
def serial : Space → UInt32 → List Call → Option (Space × UInt32)
  | d, sz, [] => some (d, sz)
  | d, sz, c :: cs =>
    if c.addr = sz then
      match growproc d userPages sz c.n with
      | some (d', some sz') => serial d' sz' cs
      | _ => none
    else none

/-- Two calls that grow, with none between them that shrinks, get separate ranges. -/
def Separate (order : List Call) : Prop :=
  ∀ l₁ c l₂ c' l₃, order = l₁ ++ c :: l₂ ++ c' :: l₃ → 0 < asInt c.n → 0 < asInt c'.n →
    (∀ x ∈ l₂, 0 ≤ asInt x.n) → c.addr.toNat + c.n.toNat ≤ c'.addr.toNat

/-- The process still has the size that a call before its critical section has read, both
times; nobody else is about to store one; and the call does not shrink the process to
nothing. -/
def Current (S : Sys ι) : Phase → Prop
  | .sized n addr sz =>
    addr = S.sz ∧ sz = S.sz ∧ (∀ u, (S.thread u).storing = false) ∧ (asInt n < 0 → sz + n ≠ 0)
  | _ => True

/-- A call comes to its critical section with what is still current. -/
def Fresh (S : Sys ι) : Act ι → Prop
  | .pages t _ => Current S (S.thread t)
  | _ => True

instance [Fintype ι] (S : Sys ι) : ∀ ph, Decidable (Current S ph)
  | .sized _ _ _ => inferInstanceAs (Decidable (_ ∧ _))
  | .idle | .called _ _ | .changed _ _ _ => inferInstanceAs (Decidable True)

instance [Fintype ι] (S : Sys ι) : ∀ a, Decidable (Fresh S a)
  | .pages t _ => inferInstanceAs (Decidable (Current S (S.thread t)))
  | .sbrk _ _ | .read _ | .store _ => inferInstanceAs (Decidable True)

theorem serial_append {d : Space} {sz : UInt32} {cs cs' : List Call} :
    serial d sz (cs ++ cs') = (serial d sz cs).bind fun m => serial m.1 m.2 cs' := by
  induction cs generalizing d sz with
  | nil => rfl
  | cons c cs ih =>
    simp only [List.cons_append, serial]
    split_ifs
    · split
      · exact ih
      · rfl
    · rfl

section Growproc

variable {d d' : Space} {avail : ℕ} {sz sz' n : UInt32}

theorem not_present (hd : d.Exact sz) (i : ℕ) : d.present (pgroundup sz + i) = false := by
  rw [← Bool.not_eq_true, hd]
  unfold pgroundup pgsize
  omega

theorem unmapPages_eq (hd : d.Exact sz) : d.unmapPages sz n = d := by
  have hp : ∀ q, (d.present q && !comesTo sz n q) = d.present q := by
    intro q
    cases hq : d.present q with
    | false => rfl
    | true =>
      have hlt := (hd q).mp hq
      have : comesTo sz n q = false := by
        rw [← Bool.not_eq_true, comesTo_iff]
        omega
      simp [this]
  show (⟨fun q => d.present q && !comesTo sz n q, d.byte⟩ : Space) = d
  simp [hp]

theorem toNat_add_pos (hsz : sz.toNat < kernbase) (hn : 0 < asInt n) :
    (sz + n).toNat = sz.toNat + n.toNat ∧ 0 < n.toNat := by
  rw [UInt32.toNat_add]
  have := n.toNat_lt
  unfold asInt at hn
  unfold kernbase at hsz
  split_ifs at hn <;> omega

theorem growproc_pos (hd : d.Exact sz) (hsz : sz.toNat < kernbase) (hn : 0 < asInt n) :
    growproc d avail sz n = some
      (if (sz + n).toNat < kernbase ∧ pgroundup (sz + n) - pgroundup sz ≤ avail then
        (d.mapPages sz (sz + n), some (sz + n)) else (d, none)) := by
  obtain ⟨hsum, hpos⟩ := toNat_add_pos hsz hn
  have hle : ¬ sz + n < sz := by
    rw [UInt32.lt_iff_toNat_lt, hsum]
    omega
  have hne : sz + n ≠ 0 := by
    intro h0
    rw [h0, UInt32.toNat_zero] at hsum
    omega
  have hany : ((List.range (min avail (pgroundup (sz + n) - pgroundup sz))).any
      fun i => d.present (pgroundup sz + i)) = false := by
    simp [not_present hd]
  rw [growproc, if_pos hn, allocuvm, if_neg hle, hany]
  by_cases hk : (sz + n).toNat ≥ kernbase
  · rw [if_pos hk, if_neg fun h => absurd h.1 (not_lt.mpr hk)]
    rfl
  · rw [if_neg hk, if_neg Bool.false_ne_true]
    by_cases hav : pgroundup (sz + n) - pgroundup sz ≤ avail
    · rw [if_pos hav, if_pos ⟨not_le.mp hk, hav⟩]
      simp [hne]
    · rw [if_neg hav, if_neg fun h => hav h.2, unmapPages_eq hd]
      rfl

theorem growproc_neg (hn : asInt n < 0) :
    growproc d avail sz n = some ((deallocuvm d sz (sz + n)).1,
      if (deallocuvm d sz (sz + n)).2 = 0 then none else some (deallocuvm d sz (sz + n)).2) := by
  rw [growproc, if_neg (by omega), if_pos hn]

theorem growproc_zero (hn : asInt n = 0) : growproc d avail sz n = some (d, some sz) := by
  rw [growproc, if_neg (by omega), if_neg (by omega)]

section

variable (hd : d.Exact sz) (hsz : sz.toNat < kernbase)
include hd hsz

theorem growproc_ne_none : growproc d avail sz n ≠ none := by
  rcases lt_trichotomy (asInt n) 0 with hn | hn | hn
  · simp [growproc_neg hn]
  · simp [growproc_zero hn]
  · simp [growproc_pos hd hsz hn]

theorem growproc_fails (hzero : asInt n < 0 → sz + n ≠ 0)
    (h : growproc d avail sz n = some (d', none)) : d' = d := by
  rcases lt_trichotomy (asInt n) 0 with hn | hn | hn
  · rw [growproc_neg hn, deallocuvm] at h
    split_ifs at h with hge h0 h0
    · cases h
      rfl
    · cases h
    · exact absurd h0 (hzero hn)
    · cases h
  · rw [growproc_zero hn] at h
    cases h
  · rw [growproc_pos hd hsz hn] at h
    split_ifs at h
    · cases h
    · cases h
      rfl

theorem growproc_userPages (h : growproc d avail sz n = some (d', some sz')) :
    growproc d userPages sz n = some (d', some sz') := by
  rcases lt_trichotomy (asInt n) 0 with hn | hn | hn
  · rw [growproc_neg hn] at h ⊢
    exact h
  · rw [growproc_zero hn] at h ⊢
    exact h
  · rw [growproc_pos hd hsz hn] at h ⊢
    split_ifs at h with hif
    · have hlt := hif.1
      have henough : pgroundup (sz + n) - pgroundup sz ≤ userPages := by
        unfold pgroundup userPages pgsize kernbase at *
        omega
      rw [if_pos ⟨hlt, henough⟩]
      exact h
    · cases h

theorem growproc_size (h : growproc d avail sz n = some (d', some sz')) :
    sz'.toNat < kernbase ∧ d'.Exact sz' ∧ (0 ≤ asInt n → sz'.toNat = sz.toNat + n.toNat) := by
  rcases lt_trichotomy (asInt n) 0 with hn | hn | hn
  · obtain ⟨-, hsome⟩ := growproc_shrinks hd hsz hn h
    exact ⟨(hsome sz' rfl).1, (hsome sz' rfl).2, fun h0 => absurd hn (not_lt.mpr h0)⟩
  · obtain ⟨-, -, hsome⟩ := growproc_grows hd hsz hn.ge h
    refine ⟨(hsome sz' rfl).1, (hsome sz' rfl).2.2, fun _ => ?_⟩
    rw [growproc_zero hn] at h
    cases h
    have := n.toNat_lt
    unfold asInt at hn
    split_ifs at hn <;> omega
  · obtain ⟨-, -, hsome⟩ := growproc_grows hd hsz hn.le h
    refine ⟨(hsome sz' rfl).1, (hsome sz' rfl).2.2, fun _ => ?_⟩
    rw [growproc_pos hd hsz hn] at h
    split_ifs at h
    · cases h
      exact (toNat_add_pos hsz hn).1
    · cases h

end

end Growproc

section Serial

variable {d d' : Space} {sz sz' : UInt32} {c : Call} {cs : List Call}

theorem serial_concat (hd : d'.Exact sz') (hsz : sz'.toNat < kernbase)
    (h : serial d sz cs = some (d', sz')) {avail : ℕ} {d'' : Space} {sz'' n : UInt32}
    (hg : growproc d' avail sz' n = some (d'', some sz'')) :
    serial d sz (cs ++ [⟨n, sz'⟩]) = some (d'', sz'') := by
  rw [serial_append, h]
  simp [serial, growproc_userPages hd hsz hg]

section

variable (hd : d.Exact sz) (hsz : sz.toNat < kernbase)
include hd hsz

end

end Serial

/-! ## Runs -/

/-- **The invariant.**  The calls that have returned account for the memory; where a thread is
about to store a size, they and its call do. -/
structure Inv (I : Image) (S : Sys ι) : Prop where
  sz_lt : S.sz.toNat < kernbase
  steady : (∀ u, (S.thread u).storing = false) →
    S.pgdir.Exact S.sz ∧ serial I.space I.sz S.returned = some (S.pgdir, S.sz)
  changed : ∀ {t n a s}, S.thread t = .changed n a s →
    (∀ u, u ≠ t → (S.thread u).storing = false) ∧ s.toNat < kernbase ∧ S.pgdir.Exact s ∧
      serial I.space I.sz (S.returned ++ [⟨n, a⟩]) = some (S.pgdir, s)

namespace Inv

variable {I : Image} {S S' : Sys ι} {t : ι}

theorem put (h : Inv I S) {ph : Phase} (hold : (S.thread t).storing = false)
    (hnew : ph.storing = false) : Inv I (S.put t ph) := by
  have hsame : ∀ u, ((S.put t ph).thread u).storing = (S.thread u).storing := by
    intro u
    by_cases hu : u = t
    · rw [hu, Sys.put_self, hold, hnew]
    · rw [Sys.put_of_ne hu]
  refine ⟨h.sz_lt, fun hno => h.steady fun u => (hsame u).symm.trans (hno u), fun {u n a s} hu => ?_⟩
  have hut : u ≠ t := by
    rintro rfl
    rw [Sys.put_self] at hu
    rw [hu] at hnew
    cases hnew
  obtain ⟨hone, hrest⟩ := h.changed ((Sys.put_of_ne hut).symm.trans hu)
  exact ⟨fun v hv => (hsame v).trans (hone v hv), hrest⟩

theorem pages (h : Inv I S) {n addr sz : UInt32} {avail : ℕ} (ht : S.thread t = .sized n addr sz)
    (hok : Fresh S (.pages t avail)) (hs : step S (.pages t avail) = some (.ok S')) : Inv I S' := by
  rw [Fresh, ht] at hok
  obtain ⟨rfl, rfl, hno, hzero⟩ := hok
  obtain ⟨hex, hser⟩ := h.steady hno
  simp only [step, ht] at hs
  cases hg : growproc S.pgdir avail S.sz n with
  | none => exact absurd hg (growproc_ne_none hex h.sz_lt)
  | some x =>
    obtain ⟨d, r⟩ := x
    rw [hg] at hs
    cases r with
    | none =>
      cases hs
      rw [growproc_fails hex h.sz_lt hzero hg]
      exact h.put (hno t) rfl
    | some sz' =>
      cases hs
      obtain ⟨hlt, hex', -⟩ := growproc_size hex h.sz_lt hg
      have hself : ({ S with pgdir := d }.put t (.changed n S.sz sz')).thread t =
          .changed n S.sz sz' := Sys.put_self _ _ _
      refine ⟨h.sz_lt, fun hnone => ?_, fun {u m a s} hu => ?_⟩
      · have := hnone t
        rw [hself] at this
        cases this
      · have hut : u = t := by
          by_contra hne
          have := hno u
          rw [show S.thread u = .changed m a s from (Sys.put_of_ne hne).symm.trans hu] at this
          cases this
        subst hut
        cases hself.symm.trans hu
        exact ⟨fun v hv => by rw [Sys.put_of_ne hv]; exact hno v, hlt, hex',
          serial_concat hex h.sz_lt hser hg⟩

theorem store (h : Inv I S) {n addr sz : UInt32} (ht : S.thread t = .changed n addr sz) :
    Inv I { S.put t .idle with sz := sz, returned := S.returned ++ [⟨n, addr⟩] } := by
  obtain ⟨hone, hlt, hex, hser⟩ := h.changed ht
  refine ⟨hlt, fun _ => ⟨hex, hser⟩, fun {u m a s} hu => ?_⟩
  by_cases hut : u = t
  · subst hut
    simp at hu
  · have := hone u hut
    rw [show S.thread u = .changed m a s from (Sys.put_of_ne hut).symm.trans hu] at this
    cases this

theorem step (h : Inv I S) {a : Act ι} (hok : Fresh S a) (hs : step S a = some (.ok S')) :
    Inv I S' := by
  cases a with
  | sbrk t n =>
    cases ht : S.thread t with
    | idle =>
      simp only [Sbrk.step, ht] at hs
      cases hs
      exact h.put (by rw [ht]; rfl) rfl
    | _ => simp [Sbrk.step, ht] at hs
  | read t =>
    cases ht : S.thread t with
    | called n a =>
      simp only [Sbrk.step, ht] at hs
      cases hs
      exact h.put (by rw [ht]; rfl) rfl
    | _ => simp [Sbrk.step, ht] at hs
  | pages t avail =>
    cases ht : S.thread t with
    | sized n a s => exact h.pages ht hok hs
    | _ => simp [Sbrk.step, ht] at hs
  | store t =>
    cases ht : S.thread t with
    | changed n a s =>
      simp only [Sbrk.step, ht] at hs
      cases hs
      exact h.store ht
    | _ => simp [Sbrk.step, ht] at hs

end Inv

end Xv6.User.Sbrk
