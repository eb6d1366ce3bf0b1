import Xv6.Bio.Basic

/-!
# What holds of the buffer cache

For whatever its callers do with the buffers they have, the list of `bio.c` is a circular
list of all buffers, no two buffers are for the same sector, a busy buffer has one holder, and
a dirty buffer is not recycled.

`Moves` lists the steps that do not panic, and `Taken` what the locked part of `bget` can do;
`Cached` is the invariant of the cache and `Used` says what the callers that are inside a
function know about their buffer.
-/

namespace Xv6.Bio

open Function List Transition

variable {C : Type} {disksize : ℕ} {x y : State C} {c : C} {b : Fin nbuf}

/-! ## Steps -/

section Steps

variable [DecidableEq C]

/-- **The steps that do not panic.** -/
inductive Moves (disksize : ℕ) (x : State C) : Act C → State C → Prop where
  | bread {c : C} {a : Addr} (h : x.pc c = .idle) : Moves disksize x (.bread c a) (x.goto c (.getting a))
  | asleep {c : C} {a : Addr} {b : Fin nbuf} (h : x.pc c = .getting a)
      (hb : x.cache.bget a = some (.busy b)) : Moves disksize x (.bget c) (x.goto c (.asleep a b))
  | taken {c : C} {a : Addr} {b : Fin nbuf} {cache : Bcache} (h : x.pc c = .getting a)
      (hb : x.cache.bget a = some (.taken b cache)) :
      Moves disksize x (.bget c) ({ x with
        cache := cache
        held := update x.held c (b :: x.held c) }.goto c (.filling a b))
  | wake {c : C} {a : Addr} {b : Fin nbuf} (h : x.pc c = .asleep a b) :
      Moves disksize x (.wake c) (x.goto c (.getting a))
  | look {c : C} {a : Addr} {b : Fin nbuf} (h : x.pc c = .filling a b) :
      Moves disksize x (.look c) (x.goto c (if (x.buf b).valid then .idle else .reading a b))
  | iderw {c : C} {b : Fin nbuf} {z : Buf} {disk : Addr → Block}
      (h : (∃ a, x.pc c = .reading a b) ∨ x.pc c = .writing b)
      (hz : iderw disksize x.disk (x.buf b) = .ok (z, disk)) :
      Moves disksize x (.iderw c) ({ x.set b fun _ => z with disk := disk }.goto c .idle)
  | modify {c : C} {b : Fin nbuf} {data : Block} (h : x.has c b = true) :
      Moves disksize x (.modify c b data) (x.set b fun z => { z with data := data })
  | bwrite {c : C} {b : Fin nbuf} (h : x.has c b = true) :
      Moves disksize x (.bwrite c b) ((x.set b fun z => { z with dirty := true }).goto c (.writing b))
  | logWrite {c : C} {b : Fin nbuf} (h : x.has c b = true) :
      Moves disksize x (.logWrite c b) (x.goto c (.logging b))
  | record {c : C} {b : Fin nbuf} (h : x.pc c = .logging b) :
      Moves disksize x (.record c) ({ x.set b fun z => { z with dirty := true } with
        log := x.log.record (x.buf b).sector }.goto c .idle)
  | brelse {c : C} {b : Fin nbuf} (h : x.has c b = true) :
      Moves disksize x (.brelse c b) { x with
        cache := x.cache.brelse b
        held := update x.held c ((x.held c).erase b)
        pc := fun c' => (x.pc c').wake b }
  | log {l : Log} : Moves disksize x (.log l) { x with log := l }

theorem Moves.of_transfer {b : Fin nbuf} (h : (∃ a, x.pc c = .reading a b) ∨ x.pc c = .writing b)
    (hs : x.transfer disksize c b = .ok y) : Moves disksize x (.iderw c) y := by
  unfold State.transfer at hs
  split at hs
  · cases hs
  · rename_i hz
    cases hs
    exact .iderw h hz

theorem Moves.of_step {a : Act C} (h : step disksize x a = some (.ok y)) : Moves disksize x a y := by
  cases a with
  | bread c a =>
    simp only [step] at h
    split at h <;> cases h
    exact .bread ‹_›
  | bget c =>
    simp only [step] at h
    split at h
    · rename_i hpc
      split at h <;> cases h
      · exact .asleep hpc ‹_›
      · exact .taken hpc ‹_›
    · cases h
  | wake c =>
    simp only [step] at h
    split at h <;> cases h
    exact .wake ‹_›
  | look c =>
    simp only [step] at h
    split at h <;> cases h
    exact .look ‹_›
  | iderw c =>
    simp only [step] at h
    split at h
    · rename_i hpc
      exact .of_transfer (.inl ⟨_, hpc⟩) (Option.some.inj h)
    · rename_i hpc
      exact .of_transfer (.inr hpc) (Option.some.inj h)
    · cases h
  | modify c b data =>
    simp only [step] at h
    split at h <;> cases h
    exact .modify ‹_›
  | bwrite c b =>
    simp only [step] at h
    split at h
    · rename_i hh
      split at h <;> cases h
      exact .bwrite hh
    · cases h
  | logWrite c b =>
    simp only [step] at h
    split at h
    · rename_i hh
      split at h
      · cases h
      · split at h <;> cases h
        exact .logWrite hh
    · cases h
  | record c =>
    simp only [step] at h
    split at h <;> cases h
    exact .record ‹_›
  | brelse c b =>
    simp only [step] at h
    split at h
    · rename_i hh
      split at h <;> cases h
      exact .brelse hh
    · cases h
  | log l =>
    cases h
    exact .log

end Steps

/-! ## The list -/

/-- The pointers form a circular list of all buffers. -/
def Listed (c : Bcache) : Prop :=
  ∃ xs : List (Fin nbuf), Circ c.links none (xs.map some) ∧ xs.Perm (List.finRange nbuf)

theorem Circ.initBuf {bs xs : List (Fin nbuf)} {k : Bcache} (h : Circ k.links none (xs.map some))
    (hnd : (xs ++ bs).Nodup) :
    Circ (bs.foldl Bcache.initBuf k).links none ((bs.reverse ++ xs).map some) := by
  induction bs generalizing xs k with
  | nil => simpa using h
  | cons b bs ih =>
    have hb : b ∉ xs ∧ (b :: xs ++ bs).Nodup := by
      have hperm : (xs ++ b :: bs).Perm (b :: (xs ++ bs)) := perm_middle
      have hnd' := nodup_cons.mp (hperm.nodup_iff.mp hnd)
      exact ⟨fun hm => hnd'.1 (by simp [hm]), nodup_cons.mpr hnd'⟩
    have hins : Circ (k.links.insertAfter none (some b)) none ((b :: xs).map some) :=
      h.insertAfter (by simpa using hb.1)
    rw [foldl_cons, reverse_cons, append_assoc, singleton_append]
    exact ih (k := k.initBuf b) hins hb.2

theorem listed_binit (k : Bcache) : Listed k.binit := by
  refine ⟨(List.finRange nbuf).reverse, ?_, reverse_perm _⟩
  have hempty : Circ ((k.links.setPrev none none).setNext none none) none
      (([] : List (Fin nbuf)).map some) := Circ.nil _ _
  have h := Circ.initBuf (k := { k with links := (k.links.setPrev none none).setNext none none })
    hempty (nodup_finRange nbuf)
  rwa [append_nil] at h

namespace Listed

variable {k : Bcache} {a : Addr}

theorem brelse (h : Listed k) (b : Fin nbuf) : Listed (k.brelse b) := by
  obtain ⟨xs, hc, hperm⟩ := h
  obtain ⟨ws, ys, rfl⟩ := append_of_mem (hperm.mem_iff.mpr (mem_finRange b))
  refine ⟨b :: (ws ++ ys), ?_, perm_middle.symm.trans hperm⟩
  rw [map_append, map_cons] at hc
  rw [map_cons, map_append]
  exact hc.moveFront

theorem find_cases {xs : List (Fin nbuf)} (hall : ∀ b, b ∈ xs) (f : Node → Bool) :
    (∃ b, ((xs.map some).find? f).join = some b ∧ f (some b) = true) ∨
      ((xs.map some).find? f).join = none ∧ ∀ b, f (some b) = false := by
  cases hf : (xs.map some).find? f with
  | none =>
    refine .inr ⟨rfl, fun b => ?_⟩
    simpa using find?_eq_none.mp hf (some b) (mem_map_of_mem (hall b))
  | some n =>
    obtain ⟨b, -, rfl⟩ := mem_map.mp (mem_of_find?_eq_some hf)
    exact .inl ⟨b, rfl, find?_some hf⟩

theorem cached_cases (h : Listed k) (a : Addr) :
    (∃ b, k.cached a = some (some b) ∧ (k.buf b).addr = a) ∨
      k.cached a = some none ∧ ∀ b, (k.buf b).addr ≠ a := by
  obtain ⟨xs, hc, hperm⟩ := h
  have hlen : (xs.map some).length < nbuf + 1 := by
    rw [length_map, hperm.length_eq, length_finRange]
    omega
  rw [Bcache.cached, hc.search_next _ hlen, Option.map_some]
  obtain ⟨b, hb, hf⟩ | ⟨hb, hf⟩ :=
    find_cases (fun b => hperm.mem_iff.mpr (mem_finRange b)) (k.isFor a)
  · refine .inl ⟨b, by rw [hb], ?_⟩
    simp only [Bcache.isFor, Bool.and_eq_true, beq_iff_eq] at hf
    exact Prod.ext hf.1 hf.2
  · refine .inr ⟨by rw [hb], ?_⟩
    rintro b rfl
    simpa [Bcache.isFor, Buf.addr] using hf b

theorem unused_cases (h : Listed k) :
    (∃ b, k.unused = some (some b) ∧ (k.buf b).busy = false ∧ (k.buf b).dirty = false) ∨
      k.unused = some none ∧ ∀ b, (k.buf b).busy = true ∨ (k.buf b).dirty = true := by
  obtain ⟨xs, hc, hperm⟩ := h
  have hlen : (xs.map some).length < nbuf + 1 := by
    rw [length_map, hperm.length_eq, length_finRange]
    omega
  rw [Bcache.unused, hc.search_prev _ hlen, Option.map_some, ← map_reverse]
  have hall : ∀ b, b ∈ xs.reverse :=
    fun b => mem_reverse.mpr (hperm.mem_iff.mpr (mem_finRange b))
  obtain ⟨b, hb, hf⟩ | ⟨hb, hf⟩ := find_cases hall k.isFree
  · refine .inl ⟨b, by rw [hb], ?_⟩
    simpa [Bcache.isFree] using hf
  · refine .inr ⟨by rw [hb], fun b => ?_⟩
    have hfree := hf b
    rw [Bcache.isFree, Bool.and_eq_false_iff, Bool.not_eq_false', Bool.not_eq_false'] at hfree
    exact hfree

end Listed

/-- What the locked part of `bget` does. -/
inductive Taken (k : Bcache) (a : Addr) : Got → Prop where
  | hit (b : Fin nbuf) (ha : (k.buf b).addr = a) (hb : (k.buf b).busy = false) :
      Taken k a (.taken b (k.set b fun z => { z with busy := true }))
  | busy (b : Fin nbuf) (ha : (k.buf b).addr = a) (hb : (k.buf b).busy = true) :
      Taken k a (.busy b)
  | recycled (b : Fin nbuf) (hno : ∀ b', (k.buf b').addr ≠ a) (hb : (k.buf b).busy = false)
      (hd : (k.buf b).dirty = false) :
      Taken k a (.taken b (k.set b fun z =>
        { z with dev := a.1, sector := a.2, busy := true, valid := false, dirty := false }))
  | noBuffers (hno : ∀ b', (k.buf b').addr ≠ a)
      (hall : ∀ b, (k.buf b).busy = true ∨ (k.buf b).dirty = true) : Taken k a .noBuffers

theorem Listed.bget {k : Bcache} (h : Listed k) (a : Addr) : ∃ g, k.bget a = some g ∧ Taken k a g := by
  obtain ⟨b, hc, ha⟩ | ⟨hc, hno⟩ := h.cached_cases a
  · cases hb : (k.buf b).busy with
    | true => exact ⟨_, by simp [Bcache.bget, hc, hb], .busy b ha hb⟩
    | false => exact ⟨_, by simp [Bcache.bget, hc, hb], .hit b ha hb⟩
  · obtain ⟨b, hu, hb, hd⟩ | ⟨hu, hall⟩ := h.unused_cases
    · exact ⟨_, by simp [Bcache.bget, hc, hu], .recycled b hno hb hd⟩
    · exact ⟨_, by simp [Bcache.bget, hc, hu], .noBuffers hno hall⟩

theorem Taken.cache_eq {k k' : Bcache} {a : Addr} (h : Taken k a (.taken b k')) :
    (k.buf b).busy = false ∧
    ((k.buf b).addr = a ∧ k' = k.set b (fun z => { z with busy := true }) ∨
      (∀ b', (k.buf b').addr ≠ a) ∧ (k.buf b).dirty = false ∧ k' = k.set b fun z =>
        { z with dev := a.1, sector := a.2, busy := true, valid := false, dirty := false }) := by
  cases h with
  | hit _ ha hb => exact ⟨hb, .inl ⟨ha, rfl⟩⟩
  | recycled _ hno hb hd => exact ⟨hb, .inr ⟨hno, hd, rfl⟩⟩

theorem Listed.taken {k : Bcache} (h : Listed k) {a : Addr} {g : Got} (hg : k.bget a = some g) :
    Taken k a g := by
  obtain ⟨g', hg', ht⟩ := h.bget a
  cases hg.symm.trans hg'
  exact ht

/-! ## The invariant -/

/-- **The invariant of the cache.** -/
structure Cached (x : State C) : Prop where
  list : Listed x.cache
  unique : ∀ {b b'}, (x.buf b).dev ≠ -1 → (x.buf b').addr = (x.buf b).addr → b' = b
  busy : ∀ b, (x.buf b).busy = true ↔ ∃ c, b ∈ x.held c
  once : ∀ {c c' b}, b ∈ x.held c → b ∈ x.held c' → c = c'
  nodup : ∀ c, (x.held c).Nodup

namespace State

variable (x : State C)

@[simp] theorem set_buf_self (f : Buf → Buf) : (x.set b f).buf b = f (x.buf b) :=
  update_self _ _ _

@[simp] theorem set_buf_ne {b' : Fin nbuf} (h : b' ≠ b) (f : Buf → Buf) :
    (x.set b f).buf b' = x.buf b' :=
  update_of_ne h _ _

theorem has_iff : x.has c b = true ↔ x.pc c = .idle ∧ b ∈ x.held c := by
  simp [has]

variable [DecidableEq C]

@[simp] theorem goto_buf (c : C) (pc : Pc) : (x.goto c pc).buf = x.buf := rfl

@[simp] theorem goto_pc_self (c : C) (pc : Pc) : (x.goto c pc).pc c = pc := update_self _ _ _

@[simp] theorem goto_pc_ne {c c' : C} (h : c' ≠ c) (pc : Pc) : (x.goto c pc).pc c' = x.pc c' :=
  update_of_ne h _ _

end State

namespace Cached

/-- No two buffers are for one sector if that was so before, and one buffer at most has got
another sector, which was nobody's. -/
theorem unique_of (h : Cached x) (hother : ∀ b', b' ≠ b → (y.buf b').addr = (x.buf b').addr)
    (hb : (y.buf b).addr = (x.buf b).addr ∨ ∀ b', (x.buf b').addr ≠ (y.buf b).addr)
    {b₁ b₂ : Fin nbuf} (hdev : (y.buf b₁).dev ≠ -1) (hab : (y.buf b₂).addr = (y.buf b₁).addr) :
    b₂ = b₁ := by
  have hold : ∀ {b'}, (y.buf b').addr = (x.buf b').addr → (y.buf b').dev = (x.buf b').dev :=
    fun he => congrArg Prod.fst he
  by_cases h₁ : b₁ = b <;> by_cases h₂ : b₂ = b
  · rw [h₁, h₂]
  · subst h₁
    obtain hsame | hnew := hb
    · exact h.unique (hold hsame ▸ hdev) (((hother b₂ h₂).symm.trans hab).trans hsame)
    · exact absurd ((hother b₂ h₂).symm.trans hab) (hnew b₂)
  · subst h₂
    obtain hsame | hnew := hb
    · exact h.unique (hold (hother b₁ h₁) ▸ hdev) ((hsame.symm.trans hab).trans (hother b₁ h₁))
    · exact absurd ((hother b₁ h₁).symm.trans hab.symm) (hnew b₁)
  · exact h.unique (hold (hother b₁ h₁) ▸ hdev)
      (((hother b₂ h₂).symm.trans hab).trans (hother b₁ h₁))

theorem same (h : Cached x) (hl : y.cache.links = x.cache.links) (hh : y.held = x.held)
    {z : Buf} (hy : y.buf = update x.buf b z) (ha : z.addr = (x.buf b).addr)
    (hb : z.busy = (x.buf b).busy) : Cached y where
  list := by
    unfold Listed
    rw [hl]
    exact h.list
  unique := by
    refine h.unique_of (b := b) (fun b' hb' => ?_) (.inl ?_)
    · rw [hy, update_of_ne hb']
    · rw [hy, update_self, ha]
  busy b' := by
    rw [hh, ← h.busy, hy]
    by_cases hbb : b' = b
    · rw [hbb, update_self, hb]
    · rw [update_of_ne hbb]
  once := by
    rw [hh]
    exact h.once
  nodup := by
    rw [hh]
    exact h.nodup

theorem keep (h : Cached x) (hc : y.cache = x.cache) (hh : y.held = x.held) : Cached y := by
  have hy : y.buf = x.buf := by
    funext b
    rw [State.buf, State.buf, hc]
  refine h.same (b := ⟨0, by decide⟩) (by rw [hc]) hh ?_ rfl rfl
  rw [hy, update_eq_self]

variable [DecidableEq C]

theorem take (h : Cached x) (hl : y.cache.links = x.cache.links)
    (hh : y.held = update x.held c (b :: x.held c)) {z : Buf}
    (hy : y.buf = update x.buf b z) (hfree : (x.buf b).busy = false) (hb : z.busy = true)
    (ha : z.addr = (x.buf b).addr ∨ ∀ b', (x.buf b').addr ≠ z.addr) : Cached y := by
  have hother : ∀ b', b' ≠ b → y.buf b' = x.buf b' :=
    fun b' hb' => by rw [hy, update_of_ne hb']
  have hself : y.buf b = z := by rw [hy, update_self]
  rw [← hself] at hb ha
  have hnobody : ∀ c', b ∉ x.held c' := by
    intro c' hm
    rw [(h.busy b).mpr ⟨c', hm⟩] at hfree
    cases hfree
  have hmem : ∀ {c' b'}, b' ∈ y.held c' ↔ b' ∈ x.held c' ∨ c' = c ∧ b' = b := by
    intro c' b'
    rw [hh]
    by_cases hc : c' = c
    · subst hc
      rw [update_self, mem_cons, or_comm]
      simp
    · simp [hc]
  refine ⟨?_, h.unique_of (fun b' hb' => by rw [hother b' hb']) ha, fun b' => ?_,
    fun {c₁ c₂ b'} h₁ h₂ => ?_, fun c' => ?_⟩
  · unfold Listed
    rw [hl]
    exact h.list
  · by_cases hbb : b' = b
    · subst hbb
      exact iff_of_true hb ⟨c, hmem.mpr (.inr ⟨rfl, rfl⟩)⟩
    · rw [hother b' hbb, h.busy]
      refine exists_congr fun c' => ?_
      rw [hmem]
      simp [hbb]
  · obtain h₁ | ⟨rfl, rfl⟩ := hmem.mp h₁
    · obtain h₂ | ⟨-, rfl⟩ := hmem.mp h₂
      · exact h.once h₁ h₂
      · exact absurd h₁ (hnobody _)
    · obtain h₂ | ⟨rfl, -⟩ := hmem.mp h₂
      · exact absurd h₂ (hnobody _)
      · rfl
  · rw [hh]
    by_cases hc : c' = c
    · subst hc
      rw [update_self]
      exact nodup_cons.mpr ⟨hnobody c', h.nodup c'⟩
    · rw [update_of_ne hc]
      exact h.nodup c'

theorem release (h : Cached x) (hm : b ∈ x.held c) (hl : y.cache = x.cache.brelse b)
    (hh : y.held = update x.held c ((x.held c).erase b))
    (hy : y.buf = update x.buf b { x.buf b with busy := false }) : Cached y := by
  have hother : ∀ b', b' ≠ b → y.buf b' = x.buf b' :=
    fun b' hb' => by rw [hy, update_of_ne hb']
  have hself : y.buf b = { x.buf b with busy := false } := by rw [hy, update_self]
  have hmem : ∀ {c' b'}, b' ∈ y.held c' ↔ b' ∈ x.held c' ∧ ¬(c' = c ∧ b' = b) := by
    intro c' b'
    rw [hh]
    by_cases hc : c' = c
    · subst hc
      rw [update_self, (h.nodup c').mem_erase_iff, and_comm]
      simp
    · simp [hc]
  refine ⟨?_, h.unique_of (fun b' hb' => by rw [hother b' hb']) (.inl (by rw [hself]; rfl)),
    fun b' => ?_, fun h₁ h₂ => ?_, fun c' => ?_⟩
  · unfold Listed
    rw [hl]
    exact h.list.brelse b
  · by_cases hbb : b' = b
    · subst hbb
      rw [hself]
      refine iff_of_false Bool.false_ne_true ?_
      rintro ⟨c', hc'⟩
      obtain ⟨hm', hne⟩ := hmem.mp hc'
      exact hne ⟨h.once hm' hm, rfl⟩
    · rw [hother b' hbb, h.busy]
      refine exists_congr fun c' => ?_
      rw [hmem]
      simp [hbb]
  · exact h.once (hmem.mp h₁).1 (hmem.mp h₂).1
  · rw [hh]
    by_cases hc : c' = c
    · subst hc
      rw [update_self]
      exact (h.nodup c').erase b
    · rw [update_of_ne hc]
      exact h.nodup c'

end Cached

theorem iderw_same {disk disk' : Addr → Block} {z z' : Buf}
    (h : iderw disksize disk z = .ok (z', disk')) :
    z'.addr = z.addr ∧ z'.busy = z.busy ∧ z'.valid = true ∧ z'.dirty = false := by
  unfold iderw at h
  split_ifs at h with _ _ _ _ hd
  · cases h
    exact ⟨rfl, rfl, rfl, rfl⟩
  · cases h
    exact ⟨rfl, rfl, rfl, by simpa using hd⟩

/-- **A step keeps the cache in order.** -/
theorem Cached.step [DecidableEq C] {a : Act C} (h : Cached x) (hm : Moves disksize x a y) :
    Cached y := by
  cases hm with
  | bread | asleep | wake | look | logWrite | log => exact h.keep rfl rfl
  | taken hpc hb =>
    obtain ⟨hfree, ⟨-, rfl⟩ | ⟨hno, -, rfl⟩⟩ := (h.list.taken hb).cache_eq
    · exact h.take rfl rfl rfl hfree rfl (.inl rfl)
    · exact h.take rfl rfl rfl hfree rfl (.inr hno)
  | iderw hpc hz => exact h.same rfl rfl rfl (iderw_same hz).1 (iderw_same hz).2.1
  | modify | bwrite | record => exact h.same rfl rfl rfl rfl rfl
  | brelse hh => exact h.release (x.has_iff.mp hh).2 rfl rfl rfl

theorem buf_binit {links : Links Node} (b : Fin nbuf) :
    (Bcache.binit ⟨fun _ => .zero, links⟩).buf b = { Buf.zero with dev := -1 } := by
  have hloop : ∀ (bs : List (Fin nbuf)) (k : Bcache),
      (bs.foldl Bcache.initBuf k).buf b = if b ∈ bs then { k.buf b with dev := -1 } else k.buf b := by
    intro bs
    induction bs with
    | nil => simp
    | cons b' bs ih =>
      intro k
      rw [foldl_cons, ih]
      by_cases hb : b = b'
      · subst hb
        simp [Bcache.initBuf, Bcache.set]
      · simp [Bcache.initBuf, Bcache.set, hb]
  rw [Bcache.binit, hloop, if_pos (mem_finRange b)]

theorem Cached.of_booted (h : Booted x) : Cached x := by
  obtain ⟨⟨links, hcache⟩, hheld, -⟩ := h
  have hbuf : ∀ b, x.buf b = { Buf.zero with dev := -1 } := by
    intro b
    rw [State.buf, hcache, buf_binit]
  refine ⟨?_, fun {b b'} hdev _ => ?_, fun b => ?_, fun hc => ?_, fun c => ?_⟩
  · rw [hcache]
    exact listed_binit _
  · rw [hbuf] at hdev
    exact absurd rfl hdev
  · rw [hbuf]
    refine iff_of_false Bool.false_ne_true ?_
    rintro ⟨c, hc⟩
    rw [hheld] at hc
    cases hc
  · rw [hheld] at hc
    cases hc
  · rw [hheld]
    exact nodup_nil

section Reached

variable [DecidableEq C]

/-- **The cache is in order in every state reached**, whatever the callers do. -/
theorem cached_of_reach {ok : State C → Act C → Prop} (h : Reach (step disksize) ok Booted x) :
    Cached x :=
  Reach.invariant (I := Cached) (fun _ => .of_booted)
    (fun _ _ _ hx _ hs => hx.step (.of_step hs)) h

/-- **A dirty buffer is not recycled.** -/
theorem addr_of_dirty {a : Act C} (h : Cached x) (hm : Moves disksize x a y)
    (hd : (x.buf b).dirty = true) : (y.buf b).addr = (x.buf b).addr := by
  -- who changes one buffer only, and not its sector
  have hset : ∀ {b' z}, y.buf = update x.buf b' z → z.addr = (x.buf b').addr →
      (y.buf b).addr = (x.buf b).addr := by
    intro b' z hy hz
    rw [hy]
    by_cases hbb : b = b'
    · rw [hbb, update_self, hz]
    · rw [update_of_ne hbb]
  cases hm with
  | bread | asleep | wake | look | logWrite | log => rfl
  | taken hpc hb =>
    rename_i b' k
    obtain ⟨-, ⟨-, rfl⟩ | ⟨-, hd', rfl⟩⟩ := (h.list.taken hb).cache_eq
    · exact hset rfl rfl
    · have hbb : b ≠ b' := by
        rintro rfl
        cases hd.symm.trans hd'
      exact congrArg Buf.addr (update_of_ne hbb _ _)
  | iderw hpc hz => exact hset rfl (iderw_same hz).1
  | modify | bwrite | record | brelse => exact hset rfl rfl

end Reached

end Xv6.Bio
