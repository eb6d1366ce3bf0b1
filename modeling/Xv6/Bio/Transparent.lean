import Xv6.Bio.Cache

/-!
# Through the buffer cache one sees the sectors

To say that the cache is transparent, what has been written has to be recorded somewhere else
than in the buffers.  `Record` does that along a run, in both senses of the word: `stored` is
the last data that a caller has put into a buffer of the sector, and `written` the last data
that was in the buffer when it was passed to `bwrite` or `log_write`.

The two are the same thing only for callers that do what the comment at the head of `bio.c`
asks for: after changing a buffer, call `bwrite` or `log_write` before `brelse` (`Saves`).  A
change that is not followed by one of these is seen by the next caller for as long as the
buffer is cached, and is gone when it has been recycled; so neither `stored` nor `written` is
then what `bread` returns (`unsaved_change_seen_and_lost`).
-/

namespace Xv6.Bio

open Function Transition State

variable {C : Type} {disksize : ℕ} {x y : State C} {c : C} {b : Fin nbuf}

/-- What has been written to the sectors. -/
structure Record where
  /-- The last data that was passed to `bwrite` or `log_write`. -/
  written : Addr → Block
  /-- The last data that was put into a buffer of the sector. -/
  stored : Addr → Block
  /-- The buffers that have been changed and not been passed to `bwrite` or `log_write`. -/
  unsaved : Fin nbuf → Bool

namespace Record

/-- A caller has put data into buffer `b`, which is for sector `a`. -/
def store (g : Record) (b : Fin nbuf) (a : Addr) (data : Block) : Record :=
  { g with
    stored := update g.stored a data
    unsaved := update g.unsaved b true }

/-- Buffer `b`, for sector `a`, has been passed to `bwrite` or `log_write`. -/
def save (g : Record) (b : Fin nbuf) (a : Addr) (data : Block) : Record :=
  { g with
    written := update g.written a data
    unsaved := update g.unsaved b false }

end Record

/-- The record after a step. -/
def note (x : State C) (g : Record) : Act C → Record
  | .modify _ b data => g.store b (x.buf b).addr data
  | .bwrite _ b => g.save b (x.buf b).addr (x.buf b).data
  | .record c =>
    match x.pc c with
    | .logging b => g.save b (x.buf b).addr (x.buf b).data
    | _ => g
  | _ => g

section Machine

variable [DecidableEq C]

/-- One step, with the record. -/
def stepNoted (disksize : ℕ) : StepFn (State C × Record) (Act C) Panic := fun x a =>
  match step disksize x.1 a with
  | none => none
  | some (.error p) => some (.error p)
  | some (.ok y) => some (.ok (y, note x.1 x.2 a))

/-- At the start the sectors are what is on the disk. -/
def Fresh (x : State C × Record) : Prop :=
  Booted x.1 ∧ x.2.written = x.1.disk ∧ x.2.stored = x.1.disk ∧ ∀ b, x.2.unsaved b = false

/-- Test for `Saves`. -/
def saves (x : State C × Record) : Act C → Bool
  | .brelse _ b => !x.2.unsaved b
  | _ => true

/-- The steps in which no caller gives back a buffer that it has changed and not passed to
`bwrite` or `log_write` since. -/
def Saves (x : State C × Record) (a : Act C) : Prop := saves x a = true

instance (x : State C × Record) (a : Act C) : Decidable (Saves x a) :=
  inferInstanceAs (Decidable (saves x a = true))

end Machine

/-! ## What callers know -/

namespace Pc

/-- The buffer that is being filled. -/
def fills : Pc → Option (Fin nbuf)
  | .filling _ b | .reading _ b => some b
  | _ => none

/-- The buffer that `bread` or `bwrite` is working on. -/
def inCall : Pc → Option (Fin nbuf)
  | .filling _ b | .reading _ b | .writing b => some b
  | _ => none

/-- What caller `c` knows at this point about its buffer. -/
def Knows (x : State C) (c : C) : Pc → Prop
  | .idle | .getting _ | .asleep _ _ => True
  | .filling a b => b ∈ x.held c ∧ (x.buf b).addr = a
  | .reading a b =>
    b ∈ x.held c ∧ (x.buf b).addr = a ∧ (x.buf b).valid = false ∧ (x.buf b).dirty = false
  | .writing b => b ∈ x.held c ∧ (x.buf b).valid = true ∧ (x.buf b).dirty = true
  | .logging b => b ∈ x.held c ∧ (x.buf b).valid = true

end Pc

/-- What holds of the buffers that caller `c` has. -/
structure UsedBy (x : State C) (c : C) : Prop where
  knows : (x.pc c).Knows x c
  valid : ∀ b ∈ x.held c, (x.buf b).valid = true ∨ (x.pc c).fills = some b

/-- **What holds of the buffers that are in use.** -/
structure Used (x : State C) : Prop where
  callers : ∀ c, UsedBy x c
  dirty : ∀ {b}, (x.buf b).dirty = true → (x.buf b).valid = true
  disk1 : ∀ {b}, (x.buf b).valid = true → (x.buf b).dev = 1

theorem UsedBy.mem_of_inCall (h : UsedBy x c) (hb : (x.pc c).inCall = some b) : b ∈ x.held c := by
  have hknows := h.knows
  cases hp : x.pc c with
  | filling a b' | reading a b' | writing b' =>
    rw [hp] at hb hknows
    cases hb
    exact hknows.1
  | idle | getting | asleep | logging =>
    rw [hp] at hb
    cases hb

theorem UsedBy.frame (h : UsedBy x c) (hbuf : ∀ b ∈ x.held c, y.buf b = x.buf b)
    (hheld : y.held c = x.held c) (hpc : y.pc c = x.pc c ∨ ∃ b, y.pc c = (x.pc c).wake b) :
    UsedBy y c := by
  have hknows : (x.pc c).Knows y c := by
    have hk := h.knows
    cases hp : x.pc c with
    | idle | getting | asleep => trivial
    | filling a b | reading a b | writing b | logging b =>
      rw [hp] at hk
      exact ⟨hheld ▸ hk.1, by rw [hbuf b hk.1]; exact hk.2⟩
  have hwake : ∀ {p : Pc} {b}, p.Knows y c → (p.wake b).Knows y c ∧ (p.wake b).fills = p.fills := by
    intro p b hp
    cases p with
    | asleep a b' =>
      rw [Pc.wake]
      split <;> exact ⟨trivial, rfl⟩
    | _ => exact ⟨hp, rfl⟩
  have hvalid : ∀ b ∈ y.held c, (y.buf b).valid = true ∨ (x.pc c).fills = some b := by
    intro b hb
    rw [hheld] at hb
    rw [hbuf b hb]
    exact h.valid b hb
  obtain hpc | ⟨b, hpc⟩ := hpc
  · exact ⟨by rwa [hpc], by rwa [hpc]⟩
  · refine ⟨by rw [hpc]; exact (hwake hknows).1, fun b' hb' => ?_⟩
    rw [hpc, (hwake hknows).2]
    exact hvalid b' hb'

theorem iderw_dev {disk disk' : Addr → Block} {z z' : Buf}
    (h : iderw disksize disk z = .ok (z', disk')) : z'.dev = 1 := by
  unfold iderw at h
  split_ifs at h with _ _ hdev _ hd
  · cases h
    exact not_not.mp hdev
  · cases h
    exact not_not.mp hdev

namespace Used

theorem act (h : Used x) {z : Buf} (hy : y.buf = update x.buf b z)
    (hmine : ∀ c', c' ≠ c → b ∉ x.held c') (hheld : ∀ c', c' ≠ c → y.held c' = x.held c')
    (hpc : ∀ c', c' ≠ c → y.pc c' = x.pc c' ∨ ∃ b', y.pc c' = (x.pc c').wake b')
    (hc : UsedBy y c) (hdirty : z.dirty = true → z.valid = true)
    (hdisk1 : z.valid = true → z.dev = 1) : Used y := by
  refine ⟨fun c' => ?_, fun {b'} hd => ?_, fun {b'} hv => ?_⟩
  · by_cases hcc : c' = c
    · rw [hcc]
      exact hc
    · refine (h.callers c').frame (fun b' hb' => ?_) (hheld c' hcc) (hpc c' hcc)
      rw [hy, update_of_ne]
      rintro rfl
      exact hmine c' hcc hb'
  · rw [hy] at hd ⊢
    by_cases hbb : b' = b
    · subst hbb
      rw [update_self] at hd ⊢
      exact hdirty hd
    · rw [update_of_ne hbb] at hd ⊢
      exact h.dirty hd
  · rw [hy] at hv ⊢
    by_cases hbb : b' = b
    · subst hbb
      rw [update_self] at hv ⊢
      exact hdisk1 hv
    · rw [update_of_ne hbb] at hv ⊢
      exact h.disk1 hv

theorem goOn (h : Used x) (hcache : y.cache = x.cache) (hheld : y.held = x.held)
    (hpc : ∀ c', c' ≠ c → y.pc c' = x.pc c') (hc : UsedBy y c) : Used y := by
  have hy : y.buf = x.buf := by
    funext b
    rw [State.buf, State.buf, hcache]
  refine ⟨fun c' => ?_, fun {b} => by rw [hy]; exact h.dirty, fun {b} => by rw [hy]; exact h.disk1⟩
  by_cases hcc : c' = c
  · rw [hcc]
    exact hc
  · exact (h.callers c').frame (fun b _ => by rw [hy]) (by rw [hheld]) (.inl (hpc c' hcc))

theorem valid_of_has (h : Used x) (hh : x.has c b = true) : (x.buf b).valid = true := by
  obtain ⟨hpc, hb⟩ := x.has_iff.mp hh
  have hv := (h.callers c).valid b hb
  rw [hpc] at hv
  exact hv.resolve_right (by simp [Pc.fills])

theorem usedBy_idle (h : Used x) {z : Buf} (hy : y.buf = update x.buf b z)
    (hheld : y.held c = x.held c) (hpc : y.pc c = .idle) (hz : z.valid = true)
    (hfills : ∀ b' ∈ x.held c, b' ≠ b → (x.pc c).fills ≠ some b') : UsedBy y c := by
  refine ⟨by rw [hpc]; trivial, fun b' hb' => .inl ?_⟩
  rw [hheld] at hb'
  rw [hy]
  by_cases hbb : b' = b
  · rw [hbb, update_self]
    exact hz
  · rw [update_of_ne hbb]
    exact ((h.callers c).valid b' hb').resolve_right (hfills b' hb' hbb)

variable [DecidableEq C]

theorem goto (h : Used x) {p : Pc} (hfills : (x.pc c).fills = none) (hp : p.Knows (x.goto c p) c) :
    Used (x.goto c p) := by
  refine h.goOn rfl rfl (fun c' hc => goto_pc_ne _ hc _) ⟨?_, fun b hb => .inl ?_⟩
  · rwa [goto_pc_self]
  · exact ((h.callers c).valid b hb).resolve_right (by simp [hfills])

theorem step {a : Act C} (h : Used x) (hk : Cached x) (hm : Moves disksize x a y) : Used y := by
  have hmine : ∀ {c b}, b ∈ x.held c → ∀ c', c' ≠ c → b ∉ x.held c' :=
    fun hb c' hc hb' => hc (hk.once hb' hb)
  have hne : ∀ {c c' : C} {f : C → Pc} {p}, c' ≠ c → update f c p c' = f c' :=
    fun hc => update_of_ne hc _ _
  cases hm with
  | bread hpc | asleep hpc _ | wake hpc => exact h.goto (by rw [hpc]; rfl) trivial
  | taken hpc hb =>
    rename_i c a b k
    obtain ⟨hfree, hcase⟩ := (hk.list.taken hb).cache_eq
    have hnobody : ∀ c', b ∉ x.held c' := by
      intro c' hm
      rw [show (x.cache.buf b).busy = (x.buf b).busy from rfl, (hk.busy b).mpr ⟨c', hm⟩] at hfree
      cases hfree
    -- the caller has got one more buffer, and is filling it
    have hused : ∀ {z : Buf}, k.buf = update x.buf b z → z.addr = a →
        UsedBy ({ x with
          cache := k
          held := update x.held c (b :: x.held c) }.goto c (.filling a b)) c := by
      intro z hz ha
      refine ⟨?_, fun b' hb' => ?_⟩
      · rw [goto_pc_self]
        refine ⟨?_, ?_⟩
        · show b ∈ update x.held c (b :: x.held c) c
          rw [update_self]
          exact List.mem_cons_self
        · show (k.buf b).addr = a
          rw [hz, update_self, ha]
      · change b' ∈ update x.held c (b :: x.held c) c at hb'
        rw [update_self, List.mem_cons] at hb'
        rw [goto_pc_self]
        by_cases hbb : b' = b
        · exact .inr (by rw [hbb]; rfl)
        · refine .inl ?_
          show (k.buf b').valid = true
          rw [hz, update_of_ne hbb]
          refine ((h.callers c).valid b' (hb'.resolve_left hbb)).resolve_right ?_
          simp [hpc, Pc.fills]
    obtain ⟨ha, rfl⟩ | ⟨-, -, rfl⟩ := hcase
    · refine h.act (c := c) rfl (fun c' _ => hnobody c') (fun c' hc => update_of_ne hc _ _)
        (fun c' hc => .inl (hne hc)) (hused rfl ha) h.dirty h.disk1
    · refine h.act (c := c) rfl (fun c' _ => hnobody c') (fun c' hc => update_of_ne hc _ _)
        (fun c' hc => .inl (hne hc)) (hused rfl rfl) ?_ ?_
      · intro hd
        cases hd
      · intro hv
        cases hv
  | look hpc =>
    rename_i c a b
    have hknows := (h.callers c).knows
    rw [hpc] at hknows
    refine h.goOn rfl rfl (fun c' hc => hne hc) ⟨?_, fun b' hb' => ?_⟩
    · rw [goto_pc_self]
      split
      · trivial
      · rename_i hv
        refine ⟨hknows.1, hknows.2, by simpa using hv, Bool.eq_false_iff.mpr fun hd => hv (h.dirty hd)⟩
    · rw [goto_pc_self]
      have hold := (h.callers c).valid b' hb'
      rw [hpc] at hold
      split
      · rename_i hv
        refine .inl (hold.elim id fun hf => ?_)
        rw [← Option.some.inj hf]
        exact hv
      · exact hold
  | iderw hpc hz =>
    rename_i c b z disk
    have hb : b ∈ x.held c := by
      have hknows := (h.callers c).knows
      obtain ⟨a, hpc⟩ | hpc := hpc <;> rw [hpc] at hknows <;> exact hknows.1
    refine h.act (c := c) rfl (hmine hb) (fun c' hc => rfl) (fun c' hc => .inl (hne hc)) ?_
      (fun _ => (iderw_same hz).2.2.1) fun _ => iderw_dev hz
    refine h.usedBy_idle rfl rfl (goto_pc_self _ _ _) (iderw_same hz).2.2.1 ?_
    intro b' _ hbb hf
    obtain ⟨a, hpc⟩ | hpc := hpc
    · rw [hpc] at hf
      exact hbb (Option.some.inj hf).symm
    · rw [hpc] at hf
      cases hf
  | modify hh =>
    rename_i c b data
    obtain ⟨hpc, hb⟩ := x.has_iff.mp hh
    refine h.act (c := c) rfl (hmine hb) (fun c' hc => rfl) (fun c' hc => .inl rfl) ?_ h.dirty h.disk1
    refine h.usedBy_idle rfl rfl hpc (h.valid_of_has hh) fun b' _ _ => ?_
    simp [hpc, Pc.fills]
  | bwrite hh =>
    rename_i c b
    obtain ⟨hpc, hb⟩ := x.has_iff.mp hh
    have hvalid := h.valid_of_has hh
    refine h.act (c := c) rfl (hmine hb) (fun c' hc => rfl) (fun c' hc => .inl (hne hc))
      ⟨?_, fun b' hb' => .inl ?_⟩ (fun _ => hvalid) h.disk1
    · rw [goto_pc_self]
      refine ⟨hb, ?_, ?_⟩
      · rw [goto_buf, set_buf_self]
        exact hvalid
      · rw [goto_buf, set_buf_self]
    · rw [goto_buf]
      by_cases hbb : b' = b
      · rw [hbb, set_buf_self]
        exact hvalid
      · rw [set_buf_ne _ hbb]
        exact h.valid_of_has (x.has_iff.mpr ⟨hpc, hb'⟩)
  | logWrite hh =>
    rename_i c b
    obtain ⟨hpc, hb⟩ := x.has_iff.mp hh
    exact h.goto (by rw [hpc]; rfl) ⟨hb, h.valid_of_has hh⟩
  | record hpc =>
    rename_i c b
    have hknows := (h.callers c).knows
    rw [hpc] at hknows
    refine h.act (c := c) rfl (hmine hknows.1) (fun c' hc => rfl) (fun c' hc => .inl (hne hc)) ?_
      (fun _ => hknows.2) h.disk1
    refine h.usedBy_idle rfl rfl (goto_pc_self _ _ _) hknows.2 fun b' _ _ => ?_
    simp [hpc, Pc.fills]
  | brelse hh =>
    rename_i c b
    obtain ⟨hpc, hb⟩ := x.has_iff.mp hh
    refine h.act (c := c) (y := _) rfl (hmine hb) (fun c' hc => update_of_ne hc _ _)
      (fun c' hc => .inr ⟨b, rfl⟩) ⟨?_, fun b' hb' => .inl ?_⟩ h.dirty h.disk1
    · show (Pc.wake b (x.pc c)).Knows _ c
      rw [hpc]
      trivial
    · change b' ∈ update x.held c ((x.held c).erase b) c at hb'
      rw [update_self, (hk.nodup c).mem_erase_iff] at hb'
      show (update x.cache.buf b _ b').valid = true
      rw [update_of_ne hb'.1]
      exact h.valid_of_has (x.has_iff.mpr ⟨hpc, hb'.2⟩)
  | log => exact ⟨fun c => (h.callers c).frame (fun _ _ => rfl) rfl (.inl rfl), h.dirty, h.disk1⟩

end Used

theorem Used.of_booted (h : Booted x) : Used x := by
  obtain ⟨⟨links, hcache⟩, hheld, hpc⟩ := h
  have hbuf : ∀ b, x.buf b = { Buf.zero with dev := -1 } := by
    intro b
    rw [State.buf, hcache, buf_binit]
  refine ⟨fun c => ⟨?_, fun b hb => ?_⟩, fun {b} hd => ?_, fun {b} hv => ?_⟩
  · rw [hpc]
    trivial
  · rw [hheld] at hb
    cases hb
  · rw [hbuf] at hd
    cases hd
  · rw [hbuf] at hv
    cases hv

/-! ## What is in the buffers -/

/-- **Buffers and disk agree with what has been written.** -/
structure Coherent (x : State C) (g : Record) : Prop where
  disk : ∀ a, x.disk a = g.written a ∨ ∃ b, (x.buf b).addr = a ∧ (x.buf b).dirty = true
  data : ∀ {b}, (x.buf b).valid = true → g.unsaved b = false →
    (x.buf b).data = g.written (x.buf b).addr
  stored : ∀ a, g.stored a = g.written a ∨ ∃ b, (x.buf b).addr = a ∧ g.unsaved b = true
  unsaved : ∀ {b}, g.unsaved b = true → (x.buf b).data = g.stored (x.buf b).addr ∧
    (x.buf b).busy = true ∧ (x.buf b).valid = true
  /-- What `bread` returns and what `bwrite` writes to the disk is recorded. -/
  inCall : ∀ {c b}, (x.pc c).inCall = some b → g.unsaved b = false

namespace Coherent

variable {g : Record}

section

variable (h : Coherent x g)
include h

theorem rebusy (hdisk : y.disk = x.disk) {v : Bool}
    (hy : y.buf = update x.buf b { x.buf b with busy := v })
    (hv : g.unsaved b = true → v = true)
    (hpc : ∀ c b, (y.pc c).inCall = some b → g.unsaved b = false) : Coherent y g := by
  have hbuf : ∀ b', (y.buf b').addr = (x.buf b').addr ∧ (y.buf b').valid = (x.buf b').valid ∧
      (y.buf b').dirty = (x.buf b').dirty ∧ (y.buf b').data = (x.buf b').data := by
    intro b'
    rw [hy]
    by_cases hbb : b' = b
    · subst hbb
      rw [update_self]
      exact ⟨rfl, rfl, rfl, rfl⟩
    · rw [update_of_ne hbb]
      exact ⟨rfl, rfl, rfl, rfl⟩
  refine ⟨fun a => ?_, fun {b'} hvalid hu => ?_, fun a => ?_, fun {b'} hu => ?_,
    fun hc => hpc _ _ hc⟩
  · rw [hdisk]
    refine (h.disk a).imp_right ?_
    rintro ⟨b', ha, hd⟩
    exact ⟨b', (hbuf b').1.trans ha, (hbuf b').2.2.1.trans hd⟩
  · obtain ⟨ha, hv', -, hdata⟩ := hbuf b'
    rw [hdata, ha]
    exact h.data (hv' ▸ hvalid) hu
  · refine (h.stored a).imp_right ?_
    rintro ⟨b', ha, hu⟩
    exact ⟨b', (hbuf b').1.trans ha, hu⟩
  · obtain ⟨ha, hv', -, hdata⟩ := hbuf b'
    obtain ⟨h₁, h₂, h₃⟩ := h.unsaved hu
    rw [hdata, ha, hv']
    refine ⟨h₁, ?_, h₃⟩
    rw [hy]
    by_cases hbb : b' = b
    · subst hbb
      rw [update_self]
      exact hv hu
    · rw [update_of_ne hbb]
      exact h₂

theorem same (hdisk : y.disk = x.disk) (hy : y.buf = x.buf)
    (hpc : ∀ c b, (y.pc c).inCall = some b → g.unsaved b = false) : Coherent y g := by
  refine h.rebusy (b := ⟨0, by decide⟩) hdisk ?_ (fun hu => (h.unsaved hu).2.1) hpc
  rw [hy, update_eq_self]

theorem behind (hclean : (x.buf b).dirty = false) (a : Addr) :
    x.disk a = g.written a ∨ ∃ b', b' ≠ b ∧ (x.buf b').addr = a ∧ (x.buf b').dirty = true := by
  refine (h.disk a).imp_right ?_
  rintro ⟨b', ha, hd⟩
  refine ⟨b', ?_, ha, hd⟩
  rintro rfl
  cases hclean.symm.trans hd

theorem recorded {z : Buf} (hy : y.buf = update x.buf b z) (hsaved : g.unsaved b = false)
    (hdisk : ∀ a, y.disk a = g.written a ∨
      ∃ b', b' ≠ b ∧ (x.buf b').addr = a ∧ (x.buf b').dirty = true)
    (hdata : z.valid = true → z.data = g.written z.addr)
    (hpc : ∀ c b, (y.pc c).inCall = some b → g.unsaved b = false) : Coherent y g := by
  have hother : ∀ {b'}, b' ≠ b → y.buf b' = x.buf b' :=
    fun hb => by rw [hy, update_of_ne hb]
  have hne : ∀ {b'}, g.unsaved b' = true → b' ≠ b := by
    rintro b' hu rfl
    cases hsaved.symm.trans hu
  refine ⟨fun a => (hdisk a).imp_right ?_, fun {b'} hv hu => ?_,
    fun a => (h.stored a).imp_right ?_, fun {b'} hu => ?_, fun hc => hpc _ _ hc⟩
  · rintro ⟨b', hbb, ha⟩
    exact ⟨b', by rwa [hother hbb]⟩
  · by_cases hbb : b' = b
    · subst hbb
      rw [hy, update_self] at hv ⊢
      exact hdata hv
    · rw [hother hbb] at hv ⊢
      exact h.data hv hu
  · rintro ⟨b', ha, hu⟩
    exact ⟨b', by rw [hother (hne hu)]; exact ⟨ha, hu⟩⟩
  · rw [hother (hne hu)]
    exact h.unsaved hu

theorem recycle {z : Buf} (hy : y.buf = update x.buf b z) (hdisk : y.disk = x.disk)
    (hfree : (x.buf b).busy = false) (hclean : (x.buf b).dirty = false) (hz : z.valid = false)
    (hpc : ∀ c b, (y.pc c).inCall = some b → g.unsaved b = false) : Coherent y g := by
  have hsaved : g.unsaved b = false := by
    refine Bool.eq_false_iff.mpr fun hu => ?_
    rw [(h.unsaved hu).2.1] at hfree
    cases hfree
  refine h.recorded hy hsaved (fun a => hdisk ▸ h.behind hclean a) (fun hv => ?_) hpc
  cases hz.symm.trans hv

theorem fill (hk : Cached x) (hy : y.buf = update x.buf b
      { x.buf b with data := x.disk (x.buf b).addr, valid := true }) (hdisk : y.disk = x.disk)
    (hdev : (x.buf b).dev = 1) (hinvalid : (x.buf b).valid = false)
    (hclean : (x.buf b).dirty = false) (hpc : ∀ c b, (y.pc c).inCall = some b → g.unsaved b = false) :
    Coherent y g := by
  have hsaved : g.unsaved b = false := by
    refine Bool.eq_false_iff.mpr fun hu => ?_
    rw [(h.unsaved hu).2.2] at hinvalid
    cases hinvalid
  refine h.recorded hy hsaved (fun a => hdisk ▸ h.behind hclean a) (fun _ => ?_) hpc
  -- no other buffer is for this sector
  refine (h.disk _).resolve_right ?_
  rintro ⟨b₁, ha, hd⟩
  rw [hk.unique (by rw [hdev]; decide) ha, hclean] at hd
  cases hd

theorem flush (hy : y.buf = update x.buf b { x.buf b with dirty := false, valid := true })
    (hdisk : y.disk = update x.disk (x.buf b).addr (x.buf b).data)
    (hvalid : (x.buf b).valid = true) (hsaved : g.unsaved b = false)
    (hpc : ∀ c b, (y.pc c).inCall = some b → g.unsaved b = false) : Coherent y g := by
  refine h.recorded hy hsaved (fun a => ?_) (fun _ => h.data hvalid hsaved) hpc
  rw [hdisk]
  by_cases ha : a = (x.buf b).addr
  · rw [ha, update_self]
    exact .inl (h.data hvalid hsaved)
  · rw [update_of_ne ha]
    refine (h.disk a).imp_right ?_
    rintro ⟨b', ha', hd⟩
    exact ⟨b', fun hbb => ha (hbb ▸ ha'.symm), ha', hd⟩

theorem modify (hk : Cached x) (hu : Used x) (hh : x.has c b = true) (data : Block) :
    Coherent (x.set b fun z => { z with data := data }) (g.store b (x.buf b).addr data) := by
  have hvalid := hu.valid_of_has hh
  have hdev : (x.buf b).dev ≠ -1 := by
    rw [hu.disk1 hvalid]
    decide
  obtain ⟨hpc, hb⟩ := x.has_iff.mp hh
  have haddr : ∀ b', ((x.set b fun z => { z with data := data }).buf b').addr = (x.buf b').addr := by
    intro b'
    by_cases hbb : b' = b
    · rw [hbb, set_buf_self]
      rfl
    · rw [set_buf_ne _ hbb]
  have hdirty : ∀ b', ((x.set b fun z => { z with data := data }).buf b').dirty =
      (x.buf b').dirty := by
    intro b'
    by_cases hbb : b' = b
    · rw [hbb, set_buf_self]
    · rw [set_buf_ne _ hbb]
  refine ⟨fun a => ?_, fun {b'} hv hs => ?_, fun a => ?_, fun {b'} hs => ?_, fun {c' b'} hc => ?_⟩
  · refine (h.disk a).imp_right ?_
    rintro ⟨b', ha, hd⟩
    exact ⟨b', (haddr b').trans ha, (hdirty b').trans hd⟩
  · have hbb : b' ≠ b := by
      rintro rfl
      simp [Record.store] at hs
    rw [set_buf_ne _ hbb] at hv ⊢
    exact h.data hv (by simpa [Record.store, hbb] using hs)
  · by_cases ha : a = (x.buf b).addr
    · refine .inr ⟨b, ?_, ?_⟩
      · rw [haddr, ha]
      · simp [Record.store]
    · simp only [Record.store, update_of_ne ha]
      refine (h.stored a).imp_right ?_
      rintro ⟨b', ha', hs⟩
      refine ⟨b', (haddr b').trans ha', ?_⟩
      by_cases hbb : b' = b
      · simp [hbb]
      · simpa [hbb] using hs
  · by_cases hbb : b' = b
    · subst hbb
      rw [set_buf_self]
      refine ⟨?_, (hk.busy b').mpr ⟨c, hb⟩, hvalid⟩
      show data = update g.stored (x.buf b').addr data (x.buf b').addr
      rw [update_self]
    · rw [set_buf_ne _ hbb]
      have hs' : g.unsaved b' = true := by simpa [Record.store, hbb] using hs
      have hne : (x.buf b').addr ≠ (x.buf b).addr := fun he => hbb (hk.unique hdev he)
      simp only [Record.store, update_of_ne hne]
      exact h.unsaved hs'
  · have hbb : b' ≠ b := by
      rintro rfl
      rw [← hk.once hb ((hu.callers c').mem_of_inCall hc)] at hc
      change (x.pc c).inCall = some b' at hc
      rw [hpc] at hc
      cases hc
    simpa [Record.store, hbb] using h.inCall (c := c') hc

theorem save (hk : Cached x) (hu : Used x) (hvalid : (x.buf b).valid = true) {z : Buf}
    (hy : y.buf = update x.buf b z) (hz : z = { x.buf b with dirty := true })
    (hdisk : y.disk = x.disk)
    (hpc : ∀ c b', (y.pc c).inCall = some b' → b' = b ∨ (x.pc c).inCall = some b') :
    Coherent y (g.save b (x.buf b).addr (x.buf b).data) := by
  have hdev : (x.buf b).dev ≠ -1 := by
    rw [hu.disk1 hvalid]
    decide
  have hother : ∀ {b'}, b' ≠ b → y.buf b' = x.buf b' :=
    fun hb => by rw [hy, update_of_ne hb]
  have hself : y.buf b = { x.buf b with dirty := true } := by rw [hy, update_self, hz]
  refine ⟨fun a => ?_, fun {b'} hv hs => ?_, fun a => ?_, fun {b'} hs => ?_, fun {c' b'} hc => ?_⟩
  · rw [hdisk]
    by_cases ha : a = (x.buf b).addr
    · exact .inr ⟨b, by rw [hself]; exact ⟨ha.symm, rfl⟩⟩
    · simp only [Record.save, update_of_ne ha]
      refine (h.disk a).imp_right ?_
      rintro ⟨b', ha', hd⟩
      have hbb : b' ≠ b := by
        rintro rfl
        exact ha ha'.symm
      exact ⟨b', by rw [hother hbb]; exact ⟨ha', hd⟩⟩
  · by_cases hbb : b' = b
    · subst hbb
      rw [hself]
      show (x.buf b').data = update g.written (x.buf b').addr (x.buf b').data (x.buf b').addr
      rw [update_self]
    · rw [hother hbb] at hv ⊢
      have hne : (x.buf b').addr ≠ (x.buf b).addr := fun he => hbb (hk.unique hdev he)
      simp only [Record.save, update_of_ne hne]
      exact h.data hv (by simpa [Record.save, hbb] using hs)
  · by_cases ha : a = (x.buf b).addr
    · -- what is in the buffer was stored there
      subst ha
      simp only [Record.save, update_self]
      refine .inl ?_
      cases hs : g.unsaved b with
      | true => exact (h.unsaved hs).1.symm
      | false =>
        rw [h.data hvalid hs]
        refine (h.stored _).resolve_right ?_
        rintro ⟨b', ha, hs'⟩
        rw [hk.unique hdev ha, hs] at hs'
        cases hs'
    · simp only [Record.save, update_of_ne ha]
      refine (h.stored a).imp_right ?_
      rintro ⟨b', ha', hs⟩
      have hbb : b' ≠ b := by
        rintro rfl
        exact ha ha'.symm
      exact ⟨b', by rw [hother hbb]; exact ha', by simpa [hbb] using hs⟩
  · have hbb : b' ≠ b := by
      rintro rfl
      simp [Record.save] at hs
    rw [hother hbb]
    exact h.unsaved (by simpa [Record.save, hbb] using hs)
  · by_cases hbb : b' = b
    · simp [Record.save, hbb]
    · simpa [Record.save, hbb] using h.inCall ((hpc c' b' hc).resolve_left hbb)

end

variable [DecidableEq C]

theorem step {a : Act C} (h : Coherent x g) (hk : Cached x) (hu : Used x) (hok : Saves (x, g) a)
    (hm : Moves disksize x a y) : Coherent y (note x g a) := by
  have hgoto : ∀ {x' : State C} {c : C} {p : Pc}, x'.pc = x.pc →
      (∀ b, p.inCall = some b → g.unsaved b = false) →
      ∀ c' b', ((x'.goto c p).pc c').inCall = some b' → g.unsaved b' = false := by
    intro x' c p hx hp c' b' hc
    by_cases hcc : c' = c
    · rw [hcc, goto_pc_self] at hc
      exact hp b' hc
    · rw [goto_pc_ne _ hcc, hx] at hc
      exact h.inCall hc
  cases hm with
  | bread | asleep | wake | logWrite => exact h.same rfl rfl (hgoto rfl (by simp [Pc.inCall]))
  | look hpc =>
    refine h.same rfl rfl (hgoto rfl fun b' hb' => h.inCall (c := ‹C›) ?_)
    split at hb'
    · cases hb'
    · rw [hpc]
      exact hb'
  | taken hpc hb =>
    rename_i c a b k
    obtain ⟨hfree, hcase⟩ := (hk.list.taken hb).cache_eq
    have hsaved : g.unsaved b = false := by
      refine Bool.eq_false_iff.mpr fun hs => ?_
      cases hfree.symm.trans (h.unsaved hs).2.1
    have hpc' : ∀ b', (Pc.filling a b).inCall = some b' → g.unsaved b' = false := by
      intro b' hb'
      cases hb'
      exact hsaved
    obtain ⟨-, rfl⟩ | ⟨-, hclean, rfl⟩ := hcase
    · exact h.rebusy rfl rfl (fun _ => rfl) (hgoto rfl hpc')
    · exact h.recycle rfl rfl hfree hclean rfl (hgoto rfl hpc')
  | iderw hpc hz =>
    rename_i c b z disk
    have hknows := (hu.callers c).knows
    have hdev : (x.buf b).dev = 1 :=
      (congrArg Prod.fst (iderw_same hz).1).symm.trans (iderw_dev hz)
    unfold iderw at hz
    obtain ⟨a, hpc⟩ | hpc := hpc
    · rw [hpc] at hknows
      obtain ⟨-, -, hinvalid, hclean⟩ := hknows
      split_ifs at hz with _ _ _ _ hd
      · rw [hclean] at hd
        cases hd
      · cases hz
        exact h.fill hk rfl rfl hdev hinvalid hclean (hgoto rfl (by simp [Pc.inCall]))
    · rw [hpc] at hknows
      obtain ⟨-, hvalid, hdirty⟩ := hknows
      have hsaved : g.unsaved b = false := h.inCall (c := c) (by rw [hpc]; rfl)
      split_ifs at hz
      cases hz
      exact h.flush rfl rfl hvalid hsaved (hgoto rfl (by simp [Pc.inCall]))
  | modify hh => exact h.modify hk hu hh _
  | bwrite hh =>
    rename_i c b
    refine h.save hk hu (hu.valid_of_has hh) rfl rfl rfl fun c' b' hc => ?_
    by_cases hcc : c' = c
    · rw [hcc, goto_pc_self] at hc
      cases hc
      exact .inl rfl
    · rw [goto_pc_ne _ hcc] at hc
      exact .inr hc
  | record hpc =>
    rename_i c b
    have hknows := (hu.callers c).knows
    rw [hpc] at hknows
    rw [note, hpc]
    refine h.save hk hu hknows.2 rfl rfl rfl fun c' b' hc => ?_
    by_cases hcc : c' = c
    · rw [hcc, goto_pc_self] at hc
      cases hc
    · rw [goto_pc_ne _ hcc] at hc
      exact .inr hc
  | brelse hh =>
    rename_i c b
    have hsaved : g.unsaved b = false := by simpa [Saves, saves] using hok
    refine h.rebusy rfl rfl (fun hs => ?_) fun c' b' hc => h.inCall (c := c') ?_
    · cases hsaved.symm.trans hs
    · change (Pc.wake b (x.pc c')).inCall = some b' at hc
      cases hp : x.pc c' with
      | asleep a₁ b₁ =>
        rw [hp, Pc.wake] at hc
        split at hc <;> cases hc
      | _ =>
        rw [hp] at hc
        exact hc
  | log => exact h.same rfl rfl fun _ _ hc => h.inCall hc

end Coherent

theorem Coherent.of_fresh {x : State C} {g : Record} (h : Booted x) (hw : g.written = x.disk)
    (hs : g.stored = x.disk) (hu : ∀ b, g.unsaved b = false) : Coherent x g := by
  obtain ⟨⟨links, hcache⟩, -, -⟩ := h
  refine ⟨fun a => .inl (by rw [hw]), fun {b} hv => ?_, fun a => .inl (by rw [hs, hw]),
    fun {b} hb => ?_, fun {c b} _ => hu b⟩
  · rw [State.buf, hcache, buf_binit] at hv
    cases hv
  · cases (hu b).symm.trans hb

/-! ## Transparency -/

theorem note_of_returned {act : Act C} {a : Addr} (g : Record)
    (hr : returned x act = some (c, a, b)) : note x g act = g := by
  cases act with
  | look | iderw => rfl
  | _ => cases hr

section Reached

variable [DecidableEq C]

/-- **The structure of the cache is in order.** -/
structure Sound (disksize : ℕ) (x : State C) : Prop where
  /-- The pointers form a circular list of the head and all buffers, and lead back as they
  lead forth. -/
  list : ∃ xs : List (Fin nbuf), Circ x.cache.links none (xs.map some) ∧
    xs.Perm (List.finRange nbuf)
  unique : ∀ b b', (x.buf b).dev ≠ -1 → (x.buf b').addr = (x.buf b).addr → b' = b
  holder : ∀ b, (x.buf b).busy = true ↔ ∃! c, b ∈ x.held c
  pinned : ∀ a y, step disksize x a = some (.ok y) → ∀ b, (x.buf b).dirty = true →
    (y.buf b).addr = (x.buf b).addr
  ends : ∀ a, x.cache.bget a ≠ none

theorem Cached.sound (h : Cached x) : Sound disksize x where
  list := h.list
  unique _ _ := h.unique
  holder b := by
    rw [h.busy]
    constructor
    · rintro ⟨c, hc⟩
      exact ⟨c, hc, fun c' hc' => h.once hc' hc⟩
    · rintro ⟨c, hc, -⟩
      exact ⟨c, hc⟩
  pinned _ _ hs _ hd := addr_of_dirty h (.of_step hs) hd
  ends a hnone := by
    obtain ⟨g, hg, -⟩ := h.list.bget a
    cases hnone.symm.trans hg

theorem buf_of_returned {act : Act C} {a : Addr} (hu : Used x) (hm : Moves disksize x act y)
    (hr : returned x act = some (c, a, b)) :
    (y.buf b).addr = a ∧ (y.buf b).valid = true ∧ (x.pc c).inCall = some b := by
  have hknows := (hu.callers c).knows
  cases hm with
  | look hpc =>
    rw [returned, hpc] at hr
    dsimp only at hr
    split at hr
    · cases hr
      rw [hpc] at hknows ⊢
      exact ⟨hknows.2, ‹_›, rfl⟩
    · cases hr
  | iderw hpc hz =>
    rename_i c' b' z disk
    obtain ⟨a', hpc⟩ | hpc := hpc
    · rw [returned, hpc] at hr
      cases hr
      rw [hpc] at hknows ⊢
      have hbuf : ({ x.set b fun _ => z with disk := disk }.goto c .idle).buf b = z :=
        set_buf_self x fun _ => z
      rw [hbuf]
      exact ⟨(iderw_same hz).1.trans hknows.2.1, (iderw_same hz).2.2.1, rfl⟩
    · rw [returned, hpc] at hr
      cases hr
  | _ => cases hr

/-- **The cache is transparent.**  Whatever the callers do, its structure is in order.  And if
no caller releases a buffer that it has changed without passing it to `bwrite` or `log_write`,
what `bread` returns for a sector is the last data written to it, which is the last data stored
in a buffer of it, and what was on the disk if there is none. -/
theorem bcache_transparent (disksize : ℕ) :
    (∀ x : State C, Reach (step disksize) anyStep Booted x → Sound disksize x) ∧
    ∀ (x : State C) (g : Record) (act : Act C) (y : State C) (g' : Record) (c : C) (a : Addr)
      (b : Fin nbuf), Reach (stepNoted disksize) Saves Fresh (x, g) → Saves (x, g) act →
      stepNoted disksize (x, g) act = some (.ok (y, g')) → returned x act = some (c, a, b) →
      (y.buf b).addr = a ∧ (y.buf b).data = g'.written a ∧ (y.buf b).data = g'.stored a := by
  refine ⟨fun x hx => (cached_of_reach hx).sound, fun x g act y g' c a b hx hok hs hr => ?_⟩
  have hstep : ∀ {x y : State C} {g g' : Record} {act : Act C},
      stepNoted disksize (x, g) act = some (.ok (y, g')) →
      Moves disksize x act y ∧ g' = note x g act := by
    intro x y g g' act hs
    simp only [stepNoted] at hs
    split at hs <;> cases hs
    exact ⟨.of_step ‹_›, rfl⟩
  have hinv : Cached x ∧ Used x ∧ Coherent x g := by
    refine Reach.invariant (I := fun x : State C × Record => Cached x.1 ∧ Used x.1 ∧ Coherent x.1 x.2)
      ?_ ?_ hx
    · rintro ⟨x, g⟩ ⟨hb, hw, hst, hun⟩
      exact ⟨.of_booted hb, .of_booted hb, .of_fresh hb hw hst hun⟩
    · rintro ⟨x, g⟩ act ⟨y, g'⟩ ⟨hk, hu, hc⟩ hok hs
      obtain ⟨hm, rfl⟩ := hstep hs
      exact ⟨hk.step hm, hu.step hk hm, hc.step hk hu hok hm⟩
  obtain ⟨hk, hu, hc⟩ := hinv
  obtain ⟨hm, rfl⟩ := hstep hs
  obtain ⟨haddr, hvalid, hcall⟩ := buf_of_returned hu hm hr
  have hsaved := hc.inCall hcall
  have hy := hc.step hk hu hok hm
  rw [note_of_returned g hr] at hy ⊢
  have hdata := hy.data hvalid hsaved
  rw [haddr] at hdata
  refine ⟨haddr, hdata, hdata.trans ?_⟩
  -- nobody is about to save another change to the sector
  refine ((hy.stored a).resolve_right ?_).symm
  rintro ⟨b', ha, hs⟩
  have hdev : (y.buf b).dev ≠ -1 := by
    rw [(hu.step hk hm).disk1 hvalid]
    decide
  rw [(hk.step hm).unique hdev (ha.trans haddr.symm), hsaved] at hs
  cases hs

end Reached

/-! ## Runs of one caller -/

/-- A disk of zeroes, and a caller that has not begun. -/
def started : State Unit × Record :=
  ({ cache := Bcache.binit ⟨fun _ => .zero, ⟨fun _ => none, fun _ => none⟩⟩
     disk := fun _ => .zero
     log := ⟨0, 0, 0, false, []⟩
     held := fun _ => []
     pc := fun _ => .idle },
   ⟨fun _ => .zero, fun _ => .zero, fun _ => false⟩)

theorem started_fresh : Fresh started :=
  ⟨⟨⟨_, rfl⟩, fun _ => rfl, fun _ => rfl⟩, rfl, rfl, fun _ => rfl⟩

/-- `bread` of a sector of the disk, up to `iderw`. -/
def reads (sector : UInt32) : List (Act Unit) := [.bread () (1, sector), .bget (), .look ()]

/-- The first buffer. -/
abbrev buf0 : Fin nbuf := ⟨0, by decide⟩

/-- Test whether `bread` returns `r` in the next step, and the state after it passes `Q`. -/
def returnsNext (act : Act Unit) (r : Unit × Addr × Fin nbuf) (Q : State Unit × Record → Bool)
    (x : State Unit × Record) : Bool :=
  returned x.1 act == some r &&
    match stepNoted 100 x act with
    | some (.ok y) => Q y
    | _ => false

theorem of_returnsNext {act : Act Unit} {r : Unit × Addr × Fin nbuf}
    {Q : State Unit × Record → Bool} {x : State Unit × Record}
    (h : returnsNext act r Q x = true) : returned x.1 act = some r ∧
      ∃ y, stepNoted 100 x act = some (.ok y) ∧ Q y = true := by
  simp only [returnsNext, Bool.and_eq_true, beq_iff_eq] at h
  obtain ⟨hr, hq⟩ := h
  refine ⟨hr, ?_⟩
  split at hq
  · exact ⟨_, ‹_›, hq⟩
  · cases hq

/-- The first sector that a caller reads. -/
theorem bcache_transparent_first_read :
    ∃ x y : State Unit × Record, Reach (stepNoted 100) Saves Fresh x ∧
      stepNoted 100 x (.iderw ()) = some (.ok y) ∧
      returned x.1 (.iderw ()) = some ((), (1, 7), buf0) ∧
      (Reach (step 100) anyStep Booted started.1 ∧ Sound 100 started.1) ∧
      (y.1.buf buf0).addr = (1, 7) ∧ (y.1.buf buf0).data = y.2.written (1, 7) ∧
      (y.1.buf buf0).data = y.2.stored (1, 7) := by
  have hm : Meets (stepNoted 100) Saves started (reads 7) := by decide +kernel
  have he : endsIn (stepNoted 100) started (reads 7)
      (returnsNext (.iderw ()) ((), (1, 7), buf0) fun _ => true) = true := by
    decide +kernel
  obtain ⟨x, hx, ht⟩ := Reach.of_endsIn started_fresh he hm
  obtain ⟨hr, y, hs, -⟩ := of_returnsNext ht
  have hstart : Reach (step 100) anyStep Booted started.1 := .start started_fresh.1
  exact ⟨x, y, hx, hs, hr, ⟨hstart, (bcache_transparent 100).1 _ hstart⟩,
    (bcache_transparent 100).2 _ _ (.iderw ()) _ _ _ _ _ hx rfl hs hr⟩

/-- A block of sevens. -/
def sevens : Block := fun _ => 7

/-- A caller reads a sector, changes it and releases the buffer. -/
def changes : List (Act Unit) :=
  reads 0 ++ [.iderw (), .modify () buf0 sevens, .brelse () buf0]

/-- It reads all sectors but one that fit into the cache, and keeps them; reads another one into
the buffer that is left, and releases that. -/
def recycles : List (Act Unit) :=
  ((List.range (nbuf - 1)).flatMap fun i => reads (UInt32.ofNat (i + 1)) ++ [.iderw ()]) ++
    reads 50 ++ [.iderw (), .brelse () buf0]

/-- **A change that is not passed to `bwrite` or `log_write` is seen by the next caller, and lost
when the buffer has been recycled**: what `bread` returns is neither the last data written nor
the last data stored. -/
theorem unsaved_change_seen_and_lost :
    (∃ (x y : State Unit × Record) (act : Act Unit), Reach (stepNoted 100) anyStep Fresh x ∧
      stepNoted 100 x act = some (.ok y) ∧ returned x.1 act = some ((), (1, 0), buf0) ∧
      (y.1.buf buf0).data ≠ y.2.written (1, 0)) ∧
    ∃ (x y : State Unit × Record) (act : Act Unit), Reach (stepNoted 100) anyStep Fresh x ∧
      stepNoted 100 x act = some (.ok y) ∧ returned x.1 act = some ((), (1, 0), buf0) ∧
      (y.1.buf buf0).data ≠ y.2.stored (1, 0) := by
  have hne : ∀ {d e : Block}, (d ⟨0, by decide⟩ != e ⟨0, by decide⟩) = true → d ≠ e := by
    rintro d e h rfl
    simp at h
  constructor
  · have he : endsIn (stepNoted 100) started (changes ++ [.bread () (1, 0), .bget ()])
        (returnsNext (.look ()) ((), (1, 0), buf0) fun y =>
          (y.1.buf buf0).data ⟨0, by decide⟩ != y.2.written (1, 0) ⟨0, by decide⟩) = true := by
      decide +kernel
    obtain ⟨x, hx, ht⟩ := Reach.of_endsIn started_fresh he
    obtain ⟨hr, y, hs, hq⟩ := of_returnsNext ht
    exact ⟨x, y, _, hx, hs, hr, hne hq⟩
  · have he : endsIn (stepNoted 100) started (changes ++ recycles ++ reads 0)
        (returnsNext (.iderw ()) ((), (1, 0), buf0) fun y =>
          (y.1.buf buf0).data ⟨0, by decide⟩ != y.2.stored (1, 0) ⟨0, by decide⟩) = true := by
      decide +kernel
    obtain ⟨x, hx, ht⟩ := Reach.of_endsIn started_fresh he
    obtain ⟨hr, y, hs, hq⟩ := of_returnsNext ht
    exact ⟨x, y, _, hx, hs, hr, hne hq⟩

end Xv6.Bio
