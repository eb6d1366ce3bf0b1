import Xv6.User.Shared

/-!
# What has been accepted stays valid

The invariant (`Live`) is about the page directory and one size: that which `growproc` or
`exec` is about to store, if a thread is there, or `proc->sz`.  While that size is less
than `proc->sz` every other thread is idle.  A process that has given up all its memory
with `sbrk` (`Gone`) has a `proc->sz` that is wrong, as `growproc` takes its new size for a
failure; but none of its threads gets to make another call.
-/

namespace Xv6.User

open Function List Transition Prog

variable {ι : Type} [DecidableEq ι] {S S' : Shared ι} {t u : ι}

/-- The call does nothing more to user memory. -/
def Harmless : Code ℤ → Prop
  | .ret _ => True
  | .vis e k => e = .ask .rest ∧ ∀ r, Harmless (k r)

/-- The thread is in user space, or in a call that has nothing left to do in user memory. -/
def Thread.Idle : Thread → Prop
  | .user => True
  | .call p held ph => Harmless p ∧ held = [] ∧ ph = .idle

/-- The memory has been made smaller than `proc->sz`, or is another one. -/
def Phase.Shrinks (sz : UInt32) : Phase → Prop
  | .grown s => s < sz
  | .replaced _ => True
  | _ => False

/-- The thread is shrinking or replacing the memory. -/
def Shared.Shrinking (S : Shared ι) (t : ι) : Prop := (S.thread t).phase.Shrinks S.sz

/-- What a call has accepted is still good. -/
def Item.Valid (S : Shared ι) : Item → Prop
  | .range p n => ∀ j < (asInt n).toNat, S.pgdir.mapped (p + UInt32.ofNat j) = true
  | .str s _ => ∃ e : UInt32, s.toNat ≤ e.toNat ∧ e < S.sz ∧ S.pgdir.byte e = 0 ∧
      ∀ a : UInt32, s.toNat ≤ a.toNat → a.toNat ≤ e.toNat → S.pgdir.mapped a = true

/-- The strings that have been accepted end in `m` where they did. -/
def Shared.KeepsEnds (S : Shared ι) (m : Mem) : Prop :=
  ∀ u s e, Item.str s e ∈ (S.thread u).held → m e = 0

theorem harmless_of_follows {p : Code ℤ} {g : Known} (h : Follows p g) (hg : g.finished = true) :
    Harmless p := by
  induction p with
  | ret r => trivial
  | vis e k ih =>
    obtain ⟨hpre, hk⟩ := (safeFrom_vis e k).mp h
    have he : e = .ask .rest := by
      unfold Op.pre at hpre
      split at hpre
      · rw [hg] at hpre
        exact absurd hpre.1 (by decide)
      · rw [hg] at hpre
        exact absurd hpre.1 (by decide)
      · rfl
      · rw [hg] at hpre
        exact absurd hpre (by decide)
    subst he
    exact ⟨rfl, fun r => ih r (hk r g rfl)⟩

theorem follows_of_harmless {p : Code ℤ} (g : Known) (h : Harmless p) : Follows p g := by
  induction p with
  | ret r => exact (safeFrom_ret r).mpr trivial
  | vis e k ih =>
    obtain ⟨rfl, hk⟩ := h
    refine (safeFrom_vis _ k).mpr ⟨trivial, fun r g' hg' => ?_⟩
    cases hg'
    exact ih r (hk r)

theorem follows_perform {e : Op} {k : e.Ans → Code ℤ} {g : Known} (h : Follows (.vis e k) g)
    (he : e.resizes = false) {W : World} {sz : UInt32} {m : Mem} (hsz : sz.toNat < kernbase)
    (hlim : g.lim ≤ sz.toNat) :
    ∃ g', Follows (k ((handler W sz).answer e m)) g' ∧ g'.lim ≤ sz.toNat := by
  obtain ⟨-, hk⟩ := (safeFrom_vis e k).mp h
  cases e with
  | size => exact ⟨_, hk sz _ (if_pos hsz), le_rfl⟩
  | ask q =>
    cases q with
    | growproc n => cases he
    | commit => cases he
    | _ => exact ⟨g, hk _ g rfl, hlim⟩
  | _ => exact ⟨g, hk _ g rfl, hlim⟩

theorem harmless_resized {q : Ask} {k : q.Ans → Code ℤ} {g : Known}
    (h : Follows (.vis (.ask q) k) g) (hq : (Op.ask q).resizes = true) (r : q.Ans) :
    Harmless (k r) := by
  obtain ⟨-, hk⟩ := (safeFrom_vis (R := Op.Ans) (Op.ask q) k).mp h
  cases q with
  | growproc | commit => exact harmless_of_follows (hk r ⟨0, true⟩ rfl) rfl
  | _ => cases hq

/-! ## The invariant -/

/-- The item is below `sz`, and a string ends where it did. -/
def Item.Below (sz : UInt32) (m : Mem) : Item → Prop
  | .range p n => ∀ j < (asInt n).toNat, p + UInt32.ofNat j < sz
  | .str s e => s.toNat ≤ e.toNat ∧ e < sz ∧ m e = 0

theorem Item.Below.mono {it : Item} {sz sz' : UInt32} {m m' : Mem} (h : it.Below sz m)
    (hsz : sz.toNat ≤ sz'.toNat) (hm : ∀ s e, it = .str s e → e < sz → m' e = 0) :
    it.Below sz' m' := by
  cases it with
  | range p n =>
    intro j hj
    have := h j hj
    rw [UInt32.lt_iff_toNat_lt] at this ⊢
    omega
  | str s e =>
    obtain ⟨hse, he, -⟩ := h
    refine ⟨hse, ?_, hm s e rfl he⟩
    rw [UInt32.lt_iff_toNat_lt] at he ⊢
    omega

/-- The size that is about to be stored. -/
def Phase.target : Phase → Option UInt32
  | .grown s => some s
  | .replaced s => some s
  | _ => none

structure Live (S : Shared ι) : Prop where
  sz_lt : S.sz.toNat < kernbase
  code : ∀ t p held ph, S.thread t = .call p held ph → ∃ g, Follows p g ∧ g.lim ≤ S.sz.toNat
  one : ∀ t u, (S.thread t).phase ≠ .idle → (S.thread u).phase ≠ .idle → t = u
  growing : ∀ t s, (S.thread t).phase = .growing s → s = S.sz
  resized : ∀ t s, (S.thread t).phase.target = some s → s.toNat < kernbase ∧ S.pgdir.Exact s
  pages : (∀ t, (S.thread t).phase.target = none) → S.pgdir.Exact S.sz
  bare : ∀ t, (S.thread t).phase ≠ .idle → (S.thread t).held = []
  alone : ∀ t u, S.Shrinking t → u ≠ t → (S.thread u).Idle
  items : ∀ t, ∀ it ∈ (S.thread t).held, it.Below S.sz S.pgdir.byte

/-- A process that has no memory left, and no thread that would need any. -/
structure Gone (S : Shared ι) : Prop where
  pages : S.pgdir.Exact 0
  idle : ∀ t, (S.thread t).Idle

section

omit [DecidableEq ι]

theorem Thread.Idle.phase_eq {th : Thread} (h : th.Idle) : th.phase = .idle := by
  cases th with
  | user => rfl
  | call p held ph => exact h.2.2

theorem Thread.Idle.held_eq {th : Thread} (h : th.Idle) : th.held = [] := by
  cases th with
  | user => rfl
  | call p held ph => exact h.2.1

theorem Shared.Shrinking.phase_ne (h : S.Shrinking t) : (S.thread t).phase ≠ .idle := by
  intro hph
  unfold Shared.Shrinking at h
  rw [hph] at h
  exact h

theorem Thread.Idle.code {th : Thread} (h : th.Idle) {sz : UInt32} :
    ∀ p held ph, th = .call p held ph → ∃ g, Follows p g ∧ g.lim ≤ sz.toNat := by
  rintro p held ph rfl
  exact ⟨⟨0, false⟩, follows_of_harmless _ h.1, Nat.zero_le _⟩

theorem Live.valid (h : Live S) {it : Item} (hit : it ∈ (S.thread t).held) : it.Valid S := by
  -- nobody is shrinking the memory
  have hno : ∀ u, ¬ S.Shrinking u := by
    intro u hu
    have hempty : (S.thread t).held = [] := by
      rcases eq_or_ne t u with rfl | hne
      · exact h.bare t hu.phase_ne
      · exact (h.alone u t hu hne).held_eq
    rw [hempty] at hit
    cases hit
  have hmapped : ∀ a : UInt32, a < S.sz → S.pgdir.mapped a = true := by
    intro a ha
    by_cases hres : ∃ u s, (S.thread u).phase.target = some s
    · obtain ⟨u, s, hs⟩ := hres
      refine (h.resized u s hs).2.mapped ha ?_
      have hu := hno u
      unfold Shared.Shrinking Phase.Shrinks at hu
      unfold Phase.target at hs
      split at hs
      · rename_i s' hph
        cases hs
        rw [hph] at hu
        rw [UInt32.not_lt, UInt32.le_iff_toNat_le] at hu
        exact hu
      · rename_i s' hph
        rw [hph] at hu
        exact absurd trivial hu
      · cases hs
    · refine (h.pages fun u => ?_).mapped ha le_rfl
      rw [← Option.not_isSome_iff_eq_none, Option.isSome_iff_exists]
      exact fun hs => hres ⟨u, hs⟩
  have hbelow := h.items t it hit
  cases it with
  | range p n => exact fun j hj => hmapped _ (hbelow j hj)
  | str s e =>
    obtain ⟨hse, he, h0⟩ := hbelow
    refine ⟨e, hse, he, h0, fun a _ hae => hmapped a ?_⟩
    rw [UInt32.lt_iff_toNat_lt] at he ⊢
    omega

end

/-! ## Steps that do not resize -/

theorem Live.move (h : Live S) (hidle : (S.thread t).phase = .idle) {m : Mem}
    (hm : S.KeepsEnds m) {th : Thread} (hph : th.phase = .idle)
    (hcode : ∀ p held ph, th = .call p held ph → ∃ g, Follows p g ∧ g.lim ≤ S.sz.toNat)
    (hitems : ∀ it ∈ th.held, it.Below S.sz m)
    (halone : ∀ u, S.Shrinking u → u ≠ t → th.Idle) :
    Live { S with
      pgdir := { S.pgdir with byte := m }
      thread := update S.thread t th } := by
  have hphase : ∀ u, (update S.thread t th u).phase = (S.thread u).phase := by
    intro u
    rcases eq_or_ne u t with rfl | hu
    · rw [update_self, hph, hidle]
    · rw [update_of_ne hu]
  constructor
  · exact h.sz_lt
  · intro u p held ph hu
    rcases eq_or_ne u t with rfl | hne
    · dsimp only at hu
      rw [update_self] at hu
      exact hcode p held ph hu
    · dsimp only at hu
      rw [update_of_ne hne] at hu
      exact h.code u p held ph hu
  · intro u v hu hv
    dsimp only at hu hv
    rw [hphase] at hu hv
    exact h.one u v hu hv
  · intro u s hu
    dsimp only at hu
    rw [hphase] at hu
    exact h.growing u s hu
  · intro u s hu
    dsimp only at hu
    rw [hphase] at hu
    exact h.resized u s hu
  · intro hnone
    refine h.pages fun u => ?_
    have := hnone u
    dsimp only at this
    rwa [hphase] at this
  · intro u hu
    dsimp only at hu
    rw [hphase] at hu
    have hne : u ≠ t := by
      rintro rfl
      exact hu hidle
    dsimp only
    rw [update_of_ne hne]
    exact h.bare u hu
  · intro u v hu hne
    have hu' : S.Shrinking u := by
      unfold Shared.Shrinking at hu ⊢
      dsimp only at hu
      rwa [hphase] at hu
    dsimp only
    rcases eq_or_ne v t with rfl | hv
    · rw [update_self]
      exact halone u hu' hne.symm
    · rw [update_of_ne hv]
      exact h.alone u v hu' hne
  · intro u it hit
    dsimp only at hit ⊢
    rcases eq_or_ne u t with rfl | hne
    · rw [update_self] at hit
      exact hitems it hit
    · rw [update_of_ne hne] at hit
      refine (h.items u it hit).mono le_rfl ?_
      rintro s e rfl -
      exact hm u s e hit

omit [DecidableEq ι] in
theorem Live.keepsEnds (h : Live S) : S.KeepsEnds S.pgdir.byte :=
  fun u _ _ hit => (h.items u _ hit).2.2

theorem below_of_accepts {e : Op} {k : e.Ans → Code ℤ} {g : Known} (h : Follows (.vis e k) g)
    {sz : UInt32} {m : Mem} (hlim : g.lim ≤ sz.toNat) {it : Item}
    (hit : it ∈ e.accepts sz m) : it.Below sz m := by
  obtain ⟨hpre, -⟩ := (safeFrom_vis e k).mp h
  cases e with
  | fits i n =>
    obtain ⟨-, hi⟩ := hpre
    dsimp only [Op.accepts] at hit
    split at hit
    · rename_i hle
      rw [mem_singleton] at hit
      subst hit
      intro j hj
      rw [UInt32.le_iff_toNat_le, UInt32.toNat_add] at hle
      refine offset_lt (k := (asInt n).toNat) ?_ hj
      unfold kernbase at hi
      have hn := n.toNat_lt
      unfold asInt at hj ⊢
      split at hj <;> omega
    · cases hit
  | scan s a =>
    obtain ⟨-, hs, ha⟩ := hpre
    dsimp only [Op.accepts] at hit
    split at hit
    · rename_i h0
      rw [mem_singleton] at hit
      subst hit
      refine ⟨hs, ?_, h0⟩
      rw [UInt32.lt_iff_toNat_lt]
      omega
    · cases hit
  | _ => cases hit

theorem Live.enter (h : Live S) (ht : S.thread t = .user) {c : Syscall} {esp : UInt32}
    (hno : ∀ u, u ≠ t → ¬ S.Shrinking u) : Live (S.put t (.call (c.code esp) [] .idle)) := by
  refine h.move (by rw [ht]; rfl) h.keepsEnds rfl ?_ nofun fun u hu hne => absurd hu (hno u hne)
  rintro p held ph ⟨⟩
  exact ⟨_, follows_code c esp, Nat.zero_le _⟩

theorem Live.leave (h : Live S) (hidle : (S.thread t).phase = .idle) : Live (S.put t .user) :=
  h.move hidle h.keepsEnds rfl nofun nofun fun _ _ _ => trivial

variable {held : List Item}

theorem Live.run (h : Live S) {W : World} {e : Op} {k : e.Ans → Code ℤ}
    (ht : S.thread t = .call (.vis e k) held .idle) (he : e.resizes = false)
    (hm : S.KeepsEnds ((handler W S.sz).effect e S.pgdir.byte)) :
    Live (S.perform t W e k held) := by
  obtain ⟨g, hg, hlim⟩ := h.code t _ _ _ ht
  refine h.move (by rw [ht]; rfl) hm rfl ?_ ?_ ?_
  · rintro p held' ph ⟨⟩
    exact follows_perform hg he h.sz_lt hlim
  · intro it hit
    rcases mem_append.mp hit with hit | hit
    · refine (below_of_accepts hg hlim hit).mono le_rfl ?_
      rintro s a rfl -
      -- an operation that accepts a string changes no byte
      cases e with
      | scan s' a' => exact (below_of_accepts hg hlim hit).2.2
      | fits i n =>
        dsimp only [Op.accepts] at hit
        split at hit
        · rw [mem_singleton] at hit
          cases hit
        · cases hit
      | _ => cases hit
    · refine (h.items t it (by rw [ht]; exact hit)).mono le_rfl ?_
      rintro s a rfl -
      exact hm t s a (by rw [ht]; exact hit)
  · intro u hu hne
    have hidle := h.alone u t hu hne.symm
    rw [ht] at hidle
    obtain ⟨⟨rfl, hk⟩, rfl, -⟩ := hidle
    exact ⟨hk _, rfl, rfl⟩

theorem Live.store (h : Live S) (ht : S.thread t = .user) {a : UInt32} {b : UInt8}
    (hm : S.KeepsEnds (S.pgdir.byte.write a [b])) :
    Live { S with pgdir := { S.pgdir with byte := S.pgdir.byte.write a [b] } } := by
  have hmove : Live { S with
      pgdir := { S.pgdir with byte := S.pgdir.byte.write a [b] }
      thread := update S.thread t .user } :=
    h.move (by rw [ht]; rfl) hm rfl nofun nofun fun _ _ _ => trivial
  rwa [← ht, update_eq_self] at hmove

/-! ## Steps that resize -/

/-- What a step of thread `t` that resizes the memory leaves to another thread. -/
structure Thread.Left (th : Thread) (sz : UInt32) (m : Mem) : Prop where
  phase : th.phase = .idle
  code : ∀ p held ph, th = .call p held ph → ∃ g, Follows p g ∧ g.lim ≤ sz.toNat
  items : ∀ it ∈ th.held, it.Below sz m

omit [DecidableEq ι] in
theorem Thread.Idle.left {th : Thread} (h : th.Idle) (sz : UInt32) (m : Mem) : th.Left sz m where
  phase := h.phase_eq
  code := h.code
  items := by
    rw [h.held_eq]
    exact nofun

omit [DecidableEq ι] in
theorem Live.left (h : Live S) {sz : UInt32} {m : Mem} (hu : (S.thread u).phase = .idle)
    (hsz : S.sz.toNat ≤ sz.toNat) (hm : ∀ a, a < S.sz → m a = S.pgdir.byte a) :
    (S.thread u).Left sz m where
  phase := hu
  code p held ph hp := by
    obtain ⟨g, hg, hlim⟩ := h.code u p held ph hp
    exact ⟨g, hg, hlim.trans hsz⟩
  items it hit := by
    refine (h.items u it hit).mono hsz ?_
    rintro s e rfl he
    rw [hm e he]
    exact (h.items u _ hit).2.2

theorem live_of_left {d : Space} {sz : UInt32} {p : Code ℤ} {ph : Phase}
    (hsz : sz.toNat < kernbase) (hcode : ∃ g, Follows p g ∧ g.lim ≤ sz.toNat)
    (hgrow : ∀ s, ph = .growing s → s = sz)
    (hres : ∀ s, ph.target = some s → s.toNat < kernbase ∧ d.Exact s)
    (hpages : ph.target = none → d.Exact sz)
    (hidle : ph.Shrinks sz → ∀ u, u ≠ t → (S.thread u).Idle)
    (hleft : ∀ u, u ≠ t → (S.thread u).Left sz d.byte) :
    Live { pgdir := d, sz := sz, thread := update S.thread t (.call p [] ph) } := by
  have hphase : ∀ u, u ≠ t → (update S.thread t (.call p [] ph) u).phase = .idle := by
    intro u hu
    rw [update_of_ne hu]
    exact (hleft u hu).phase
  have hself : ∀ u, (update S.thread t (.call p [] ph) u).phase ≠ .idle → u = t := by
    intro u hu
    by_contra hne
    exact hu (hphase u hne)
  have hphself : (update S.thread t (.call p [] ph) t).phase = ph := by
    rw [update_self]
    rfl
  constructor
  · exact hsz
  · intro u p' held ph' hu
    dsimp only at hu
    rcases eq_or_ne u t with rfl | hne
    · rw [update_self] at hu
      cases hu
      exact hcode
    · rw [update_of_ne hne] at hu
      exact (hleft u hne).code p' held ph' hu
  · intro u v hu hv
    rw [hself u hu, hself v hv]
  · intro u s hu
    dsimp only at hu
    rw [hself u (by rw [hu]; nofun), hphself] at hu
    exact hgrow s hu
  · intro u s hu
    dsimp only at hu
    rw [hself u (by intro hc; rw [hc] at hu; cases hu), hphself] at hu
    exact hres s hu
  · intro hnone
    refine hpages ?_
    rw [← hphself]
    exact hnone t
  · intro u hu
    rw [hself u hu]
    dsimp only
    rw [update_self]
    rfl
  · intro u v hu hne
    have hut := hself u hu.phase_ne
    subst hut
    unfold Shared.Shrinking at hu
    dsimp only at hu ⊢
    rw [hphself] at hu
    rw [update_of_ne hne]
    exact hidle hu v hne
  · intro u it hit
    dsimp only at hit ⊢
    rcases eq_or_ne u t with rfl | hne
    · rw [update_self] at hit
      cases hit
    · rw [update_of_ne hne] at hit
      exact (hleft u hne).items it hit

section

omit [DecidableEq ι]

theorem Live.others (h : Live S) (ht : (S.thread t).phase ≠ .idle) (hu : u ≠ t) :
    (S.thread u).phase = .idle := by
  by_contra hc
  exact hu (h.one u t hc ht)

theorem Live.exact_of_growing (h : Live S) {s : UInt32} (ht : (S.thread t).phase = .growing s) :
    S.pgdir.Exact S.sz := by
  refine h.pages fun u => ?_
  rcases eq_or_ne u t with rfl | hu
  · rw [ht]
    rfl
  · rw [h.others (by rw [ht]; nofun) hu]
    rfl

theorem Live.exact_of_idle (h : Live S) (hall : ∀ u, (S.thread u).phase = .idle) :
    S.pgdir.Exact S.sz := by
  refine h.pages fun u => ?_
  rw [hall u]
  rfl

end

theorem Live.growRead (h : Live S) {n : UInt32} {k : ℤ → Code ℤ}
    (ht : S.thread t = .call (.vis (.ask (.growproc n)) k) held .idle)
    (hothers : ∀ u, u ≠ t → (S.thread u).phase = .idle) :
    Live (S.put t (.call (.vis (.ask (.growproc n)) k) [] (.growing S.sz))) := by
  have hpages : S.pgdir.Exact S.sz := by
    refine h.exact_of_idle fun u => ?_
    rcases eq_or_ne u t with rfl | hu
    · rw [ht]
      rfl
    · exact hothers u hu
  refine live_of_left h.sz_lt (h.code t _ _ _ ht) ?_ nofun (fun _ => hpages) nofun
    fun u hu => h.left (hothers u hu) le_rfl fun _ _ => rfl
  rintro s ⟨⟩
  rfl

omit [DecidableEq ι] in
theorem Live.held_eq (h : Live S) {p : Code ℤ} {ph : Phase} (ht : S.thread t = .call p held ph)
    (hph : ph ≠ .idle) : held = [] := by
  have := h.bare t (by rw [ht]; exact hph)
  rw [ht] at this
  exact this

theorem Live.growPages (h : Live S) {avail : ℕ} {n s s' : UInt32} {k : ℤ → Code ℤ} {d : Space}
    (ht : S.thread t = .call (.vis (.ask (.growproc n)) k) held (.growing s))
    (hd : growproc S.pgdir avail s n = some (d, some s'))
    (hidle : asInt n < 0 → ∀ u, u ≠ t → (S.thread u).Idle) :
    Live ({ S with pgdir := d }.put t (.call (.vis (.ask (.growproc n)) k) held (.grown s'))) := by
  have hph : (S.thread t).phase = .growing s := by
    rw [ht]
    rfl
  have hs := h.growing t s hph
  have hex := h.exact_of_growing hph
  have hothers : ∀ u, u ≠ t → (S.thread u).phase = .idle := fun u hu =>
    h.others (by rw [hph]; nofun) hu
  rw [h.held_eq ht nofun]
  rw [hs] at hd
  rcases lt_or_ge (asInt n) 0 with hneg | hpos
  · obtain ⟨-, hsome⟩ := growproc_shrinks hex h.sz_lt hneg hd
    refine live_of_left h.sz_lt (h.code t _ _ _ ht) nofun ?_ nofun (fun _ => hidle hneg)
      fun u hu => (hidle hneg u hu).left _ _
    rintro s'' ⟨⟩
    exact hsome s' rfl
  · obtain ⟨hbyte, -, hsome⟩ := growproc_grows hex h.sz_lt hpos hd
    obtain ⟨hlt, hle, hex'⟩ := hsome s' rfl
    refine live_of_left h.sz_lt (h.code t _ _ _ ht) nofun ?_ nofun (fun hshrink => ?_)
      fun u hu => h.left (hothers u hu) le_rfl hbyte
    · rintro s'' ⟨⟩
      exact ⟨hlt, hex'⟩
    · rw [Phase.Shrinks, UInt32.lt_iff_toNat_lt] at hshrink
      exact absurd hle (not_le.mpr hshrink)

theorem Live.growFails (h : Live S) {avail : ℕ} {n s : UInt32} {k : ℤ → Code ℤ} {d : Space}
    (ht : S.thread t = .call (.vis (.ask (.growproc n)) k) held (.growing s))
    (hd : growproc S.pgdir avail s n = some (d, none))
    (hidle : asInt n < 0 → ∀ u, u ≠ t → (S.thread u).Idle) :
    Live ({ S with pgdir := d }.put t (.call (k (-1)) held .idle)) ∨
      Gone ({ S with pgdir := d }.put t (.call (k (-1)) held .idle)) := by
  have hph : (S.thread t).phase = .growing s := by
    rw [ht]
    rfl
  have hs := h.growing t s hph
  have hex := h.exact_of_growing hph
  obtain ⟨g, hg, hlim⟩ := h.code t _ _ _ ht
  have hk : Harmless (k (-1)) := harmless_resized hg rfl (-1)
  rw [h.held_eq ht nofun]
  rw [hs] at hd
  rcases lt_or_ge (asInt n) 0 with hneg | hpos
  · obtain ⟨hnone, -⟩ := growproc_shrinks hex h.sz_lt hneg hd
    refine .inr ⟨hnone rfl, fun u => ?_⟩
    dsimp only [Shared.put]
    rcases eq_or_ne u t with rfl | hu
    · rw [update_self]
      exact ⟨hk, rfl, rfl⟩
    · rw [update_of_ne hu]
      exact hidle hneg u hu
  · obtain ⟨hbyte, hnone, -⟩ := growproc_grows hex h.sz_lt hpos hd
    exact .inl (live_of_left h.sz_lt ⟨⟨0, false⟩, follows_of_harmless _ hk, Nat.zero_le _⟩ nofun nofun
      (fun _ => hnone rfl) nofun
      fun u hu => h.left (h.others (by rw [hph]; nofun) hu) le_rfl hbyte)

theorem Live.commitPgdir (h : Live S) {k : ℤ → Code ℤ} {img : Image}
    (ht : S.thread t = .call (.vis (.ask .commit) k) held .idle)
    (hidle : ∀ u, u ≠ t → (S.thread u).Idle) :
    Live ({ S with pgdir := img.space }.put t
      (.call (.vis (.ask .commit) k) [] (.replaced img.sz))) := by
  refine live_of_left h.sz_lt (h.code t _ _ _ ht) nofun ?_ nofun (fun _ => hidle)
    fun u hu => (hidle u hu).left _ _
  rintro s ⟨⟩
  exact ⟨img.sz_lt, img.exact_sz⟩

/-! ## Runs -/

/-- A step that neither resizes nor stores, at a time when nobody resizes. -/
def plain (S : Shared Bool) : Act Bool → Bool
  | .enter _ _ _ _ => [true, false].all fun u =>
    match (S.thread u).phase with
    | .idle => true
    | _ => false
  | .run t _ =>
    match S.thread t with
    | .call (.vis (.store _ _) _) _ _ => false
    | _ => true
  | _ => false

end Xv6.User
