import Xv6.User.Alone

/-!
# The memory of a process

The user half of a page directory, and the functions of `vm.c`, `proc.c` and `exec.c` that
change it.  A page is known by its number; the loops over pages of `allocuvm` and
`deallocuvm` are written as what they do to each page.

* `Space.Exact` --- the pages that are present are those below a size.  All of these
  functions keep it for the size they return, and that size below `KERNBASE`; an `Image`
  carries both.
-/

namespace Xv6.User

def pgsize : ℕ := 4096

/-- The page of an address. -/
def page (a : UInt32) : ℕ := a.toNat / pgsize

/-- `PGROUNDUP(a)/PGSIZE`; the addresses that are rounded up are below `KERNBASE`, so
nothing wraps. -/
def pgroundup (a : UInt32) : ℕ := (a.toNat + (pgsize - 1)) / pgsize

/-- The loop `for(a = PGROUNDUP(lo); a < hi; a += PGSIZE)` comes to page `q`. -/
def comesTo (lo hi : UInt32) (q : ℕ) : Bool := decide (pgroundup lo ≤ q ∧ q * pgsize < hi.toNat)

/-- The user half of a page directory: the pages that are present, and what they hold. -/
structure Space where
  present : ℕ → Bool
  byte : Mem

namespace Space

/-- The page of the address is present. -/
def mapped (d : Space) (a : UInt32) : Bool := d.present (page a)

/-- Map fresh pages. -/
def mapPages (d : Space) (lo hi : UInt32) : Space where
  present q := d.present q || comesTo lo hi q
  byte a := if comesTo lo hi (page a) then 0 else d.byte a

def unmapPages (d : Space) (lo hi : UInt32) : Space :=
  { d with present := fun q => d.present q && !comesTo lo hi q }

/-- The pages that are present are those below `sz`. -/
def Exact (d : Space) (sz : UInt32) : Prop := ∀ q, d.present q = true ↔ q * pgsize < sz.toNat

end Space

open Space

def deallocuvm (d : Space) (oldsz newsz : UInt32) : Space × UInt32 :=
  if newsz ≥ oldsz then (d, oldsz) else (d.unmapPages newsz oldsz, newsz)

/-- `allocuvm`, when `avail` pages can be had; nothing if `mappages` panics, because a page
is present already.  When there are too few pages, `deallocuvm` takes back those that have
been mapped. -/
def allocuvm (d : Space) (avail : ℕ) (oldsz newsz : UInt32) : Option (Space × UInt32) :=
  if newsz.toNat ≥ kernbase then some (d, 0)
  else if newsz < oldsz then some (d, oldsz)
  else if (List.range (min avail (pgroundup newsz - pgroundup oldsz))).any
      fun i => d.present (pgroundup oldsz + i) then none
  else if pgroundup newsz - pgroundup oldsz ≤ avail then some (d.mapPages oldsz newsz, newsz)
  else some (d.unmapPages oldsz newsz, 0)

/-- `growproc(n)`, between `acquire` and `release`, for a process whose size was read as
`sz`: the new size, or nothing if it fails.  Nothing at all if `mappages` panics. -/
def growproc (d : Space) (avail : ℕ) (sz n : UInt32) : Option (Space × Option UInt32) :=
  if asInt n > 0 then
    match allocuvm d avail sz (sz + n) with
    | none => none
    | some (d', sz') => some (d', if sz' = 0 then none else some sz')
  else if asInt n < 0 then
    some ((deallocuvm d sz (sz + n)).1,
      if (deallocuvm d sz (sz + n)).2 = 0 then none else some (deallocuvm d sz (sz + n)).2)
  else some (d, some sz)

/-- The loop of `exec` over the program headers; a header is given by the end of its
segment. -/
def execSegments (avail : ℕ) : Space → UInt32 → List UInt32 → Option (Space × UInt32)
  | d, sz, [] => some (d, sz)
  | d, sz, e :: es =>
    match allocuvm d avail sz e with
    | none => none
    | some (d', sz') => if sz' = 0 then none else execSegments avail d' sz' es

/-- All of `exec`'s allocations: the segments, then two pages on the next page boundary. -/
def execSpace (avail : ℕ) (ends : List UInt32) : Option (Space × UInt32) :=
  match execSegments avail ⟨fun _ => false, fun _ => 0⟩ 0 ends with
  | none => none
  | some (d, sz) =>
    let top := UInt32.ofNat (pgroundup sz * pgsize)
    match allocuvm d avail top (top + 8192) with
    | none => none
    | some (d', sz') => if sz' = 0 then none else some (d', sz')

/-! ## Pages below a size -/

theorem comesTo_iff {lo hi : UInt32} {q : ℕ} :
    comesTo lo hi q = true ↔ ¬ q * pgsize < lo.toNat ∧ q * pgsize < hi.toNat := by
  rw [comesTo, decide_eq_true_eq]
  refine and_congr_left fun _ => ?_
  unfold pgroundup pgsize
  omega

theorem page_mul_le (a : UInt32) : page a * pgsize ≤ a.toNat := Nat.div_mul_le_self _ _

namespace Space

variable {d : Space} {sz lo hi : UInt32}

theorem Exact.mapPages (h : d.Exact lo) (hle : lo.toNat ≤ hi.toNat) :
    (d.mapPages lo hi).Exact hi := by
  intro q
  show (d.present q || comesTo lo hi q) = true ↔ _
  rw [Bool.or_eq_true, h q, comesTo_iff]
  omega

theorem Exact.unmapPages (h : d.Exact hi) (hle : lo.toNat ≤ hi.toNat) :
    (d.unmapPages lo hi).Exact lo := by
  intro q
  show (d.present q && !comesTo lo hi q) = true ↔ _
  rw [Bool.and_eq_true, h q, Bool.not_eq_true', ← Bool.not_eq_true, comesTo_iff]
  omega

theorem Exact.unmapPages_above (h : d.Exact lo) : (d.unmapPages lo hi).Exact lo := by
  intro q
  show (d.present q && !comesTo lo hi q) = true ↔ _
  rw [Bool.and_eq_true, h q, Bool.not_eq_true', ← Bool.not_eq_true, comesTo_iff]
  omega

theorem Exact.mapped (h : d.Exact hi) {a : UInt32} (ha : a < lo) (hle : lo.toNat ≤ hi.toNat) :
    d.mapped a = true := by
  rw [UInt32.lt_iff_toNat_lt] at ha
  have := page_mul_le a
  exact (h _).mpr (by omega)

theorem Exact.roundup (h : d.Exact sz) (hsz : sz.toNat < kernbase) :
    d.Exact (UInt32.ofNat (pgroundup sz * pgsize)) := by
  intro q
  rw [h q, UInt32.toNat_ofNat']
  unfold pgroundup pgsize kernbase at *
  omega

end Space

/-! ## What the functions return -/

/-- `allocuvm` fails and leaves the pages as they were, or it succeeds; either way what is
below the old size stays. -/
theorem allocuvm_spec {d d' : Space} {avail : ℕ} {oldsz newsz sz' : UInt32}
    (hd : d.Exact oldsz) (hold : oldsz.toNat < kernbase)
    (h : allocuvm d avail oldsz newsz = some (d', sz')) :
    sz'.toNat < kernbase ∧ (∀ a, a < oldsz → d'.byte a = d.byte a) ∧
      (sz' = 0 ∧ d'.Exact oldsz ∨ oldsz.toNat ≤ sz'.toNat ∧ d'.Exact sz') := by
  unfold allocuvm at h
  split at h
  · cases h
    exact ⟨by decide, fun _ _ => rfl, .inl ⟨rfl, hd⟩⟩
  · rename_i hlt
    split at h
    · cases h
      exact ⟨hold, fun _ _ => rfl, .inr ⟨le_rfl, hd⟩⟩
    · rename_i hle
      rw [UInt32.not_lt, UInt32.le_iff_toNat_le] at hle
      split at h
      · cases h
      · split at h
        · cases h
          refine ⟨by omega, fun a ha => ?_, .inr ⟨hle, hd.mapPages hle⟩⟩
          have hno : ¬ comesTo oldsz newsz (page a) = true := by
            rw [comesTo_iff]
            rw [UInt32.lt_iff_toNat_lt] at ha
            have := page_mul_le a
            omega
          exact if_neg hno
        · cases h
          exact ⟨by decide, fun _ _ => rfl, .inl ⟨rfl, hd.unmapPages_above⟩⟩

theorem deallocuvm_spec {d : Space} {oldsz : UInt32} (newsz : UInt32) (hd : d.Exact oldsz) :
    (deallocuvm d oldsz newsz).2.toNat ≤ oldsz.toNat ∧
      (deallocuvm d oldsz newsz).1.Exact (deallocuvm d oldsz newsz).2 := by
  unfold deallocuvm
  split
  · exact ⟨le_rfl, hd⟩
  · rename_i hlt
    rw [ge_iff_le, UInt32.not_le, UInt32.lt_iff_toNat_lt] at hlt
    exact ⟨hlt.le, hd.unmapPages hlt.le⟩

theorem growproc_grows {d d' : Space} {avail : ℕ} {sz n : UInt32} {r : Option UInt32}
    (hd : d.Exact sz) (hsz : sz.toNat < kernbase) (hn : 0 ≤ asInt n)
    (h : growproc d avail sz n = some (d', r)) :
    (∀ a, a < sz → d'.byte a = d.byte a) ∧ (r = none → d'.Exact sz) ∧
      ∀ sz', r = some sz' → sz'.toNat < kernbase ∧ sz.toNat ≤ sz'.toNat ∧ d'.Exact sz' := by
  unfold growproc at h
  split at h
  · split at h
    · cases h
    · rename_i d'' sz'' ha
      obtain ⟨hlt, hbyte, hres⟩ := allocuvm_spec hd hsz ha
      cases h
      refine ⟨hbyte, fun hr => ?_, fun sz' hsz' => ?_⟩
      · split at hr
        · rename_i h0
          rcases hres with ⟨-, hex⟩ | ⟨hle, hex⟩
          · exact hex
          · -- a new size `0` is that of an empty process
            have hz : sz = sz'' := by
              rw [h0, UInt32.toNat_zero, Nat.le_zero] at hle
              rw [h0]
              exact UInt32.toNat_inj.mp hle
            rw [hz]
            exact hex
        · cases hr
      · split at hsz'
        · cases hsz'
        · rename_i hne
          cases hsz'
          obtain ⟨hle, hnew⟩ := hres.resolve_left fun hc => hne hc.1
          exact ⟨hlt, hle, hnew⟩
  · rw [if_neg (by omega)] at h
    cases h
    refine ⟨fun _ _ => rfl, nofun, fun sz' hsz' => ?_⟩
    cases hsz'
    exact ⟨hsz, le_rfl, hd⟩

/-- A `growproc` that shrinks.  It takes a new size of `0` for a failure, when everything
has been unmapped. -/
theorem growproc_shrinks {d d' : Space} {avail : ℕ} {sz n : UInt32} {r : Option UInt32}
    (hd : d.Exact sz) (hsz : sz.toNat < kernbase) (hn : asInt n < 0)
    (h : growproc d avail sz n = some (d', r)) :
    (r = none → d'.Exact 0) ∧ ∀ sz', r = some sz' → sz'.toNat < kernbase ∧ d'.Exact sz' := by
  obtain ⟨hle, hnew⟩ := deallocuvm_spec (sz + n) hd
  unfold growproc at h
  rw [if_neg (by omega), if_pos hn] at h
  cases h
  refine ⟨fun hr => ?_, fun sz' hsz' => ?_⟩
  · split at hr
    · rename_i h0
      rw [h0] at hnew
      exact hnew
    · cases hr
  · split at hsz'
    · cases hsz'
    · cases hsz'
      exact ⟨by omega, hnew⟩

/-- Memory for a process, with all its pages. -/
structure Image where
  space : Space
  sz : UInt32
  exact_sz : space.Exact sz
  sz_lt : sz.toNat < kernbase

theorem execSegments_spec {avail : ℕ} :
    ∀ {ends : List UInt32} {d d' : Space} {sz sz' : UInt32}, d.Exact sz → sz.toNat < kernbase →
      execSegments avail d sz ends = some (d', sz') → d'.Exact sz' ∧ sz'.toNat < kernbase
  | [], _, _, _, _, hd, hsz, h => by
    cases h
    exact ⟨hd, hsz⟩
  | e :: es, d, d', sz, sz', hd, hsz, h => by
    rw [execSegments] at h
    split at h
    · cases h
    · rename_i d1 sz1 ha
      obtain ⟨hlt, -, hres⟩ := allocuvm_spec hd hsz ha
      split at h
      · cases h
      · rename_i hne
        exact execSegments_spec (hres.resolve_left fun hc => hne hc.1).2 hlt h

theorem execSpace_spec {avail : ℕ} {ends : List UInt32} {d : Space} {sz : UInt32}
    (h : execSpace avail ends = some (d, sz)) : d.Exact sz ∧ sz.toNat < kernbase := by
  unfold execSpace at h
  split at h
  · cases h
  · rename_i d1 sz1 hs
    have hempty : (⟨fun _ => false, fun _ => 0⟩ : Space).Exact 0 := fun q =>
      iff_of_false Bool.false_ne_true (Nat.not_lt_zero _)
    obtain ⟨hd, hlt⟩ := execSegments_spec hempty (by decide) hs
    dsimp only at h
    split at h
    · cases h
    · rename_i d2 sz2 ha
      split at h
      · cases h
      · rename_i hne
        cases h
        -- the rounded size may be `KERNBASE` itself, but then `allocuvm` fails
        have hroom : (UInt32.ofNat (pgroundup sz1 * pgsize)).toNat < kernbase := by
          by_contra hge
          refine hne ?_
          unfold allocuvm at ha
          rw [if_pos ?_] at ha
          · cases ha
            rfl
          · rw [UInt32.toNat_add]
            rw [UInt32.toNat_ofNat'] at hge ⊢
            rw [show (8192 : UInt32).toNat = 8192 from rfl]
            unfold pgroundup pgsize kernbase at *
            omega
        obtain ⟨hlt2, -, hres⟩ := allocuvm_spec (hd.roundup hlt) hroom ha
        exact ⟨(hres.resolve_left fun hc => hne hc.1).2, hlt2⟩

/-- The memory that `exec` makes, for a program whose segments have these ends; `m` is what
it and its arguments have been copied to. -/
def execImage (avail : ℕ) (ends : List UInt32) (m : Mem) : Option Image :=
  match h : execSpace avail ends with
  | none => none
  | some (d, sz) => some
      { space := { d with byte := m }
        sz := sz
        exact_sz := (execSpace_spec h).1
        sz_lt := (execSpace_spec h).2 }

end Xv6.User
