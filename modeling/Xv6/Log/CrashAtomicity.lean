import Xv6.Log.Commit

/-!
# A commit is atomic across crashes

The argument announced in `Log.Commit`.  The loops of `write_log` and `install_trans`
are described first, each by what it writes and by the kind of disk it keeps; then the
three kinds `Before`, `During` and `After` of a fixed group are followed through
`commit` and through any number of interrupted recoveries.

* `Kept` --- a property of the current disk and of every disk in the trace; a run that
  keeps it leaves only such disks behind, wherever it is cut.
-/

namespace Xv6

open Function List
variable {d : Disk} {m : Machine}

namespace Machine

/-! ## The loop of `write_log` -/

@[simp] theorem writeLogStep_disk (m : Machine) (tail : ℕ) (s : UInt32) :
    (m.writeLogStep tail s).disk =
      update m.disk (m.log.start + tail + 1) (m.data s.toNat) := by
  simp only [writeLogStep, bread_log, bwrite_disk, bread_disk, bread_data]

@[simp] theorem writeLogStep_data (m : Machine) (tail : ℕ) (s : UInt32) :
    (m.writeLogStep tail s).data =
      update m.data (m.log.start + tail + 1) (m.data s.toNat) := by
  simp only [writeLogStep, bread_log, bwrite_data, bread_data]

@[simp] theorem writeLogStep_log (m : Machine) (tail : ℕ) (s : UInt32) :
    (m.writeLogStep tail s).log = m.log := by
  simp only [writeLogStep, bwrite_log, bread_log]

@[simp] theorem writeLogStep_trace (m : Machine) (tail : ℕ) (s : UInt32) :
    (m.writeLogStep tail s).trace =
      update m.disk (m.log.start + tail + 1) (m.data s.toNat) :: m.trace := by
  simp only [writeLogStep, bread_log, bwrite_trace, bread_disk, bread_data, bread_trace]

@[simp] theorem writeLogFrom_log :
    ∀ (l : List UInt32) (m : Machine) (tail : ℕ), (m.writeLogFrom tail l).log = m.log
  | [], _, _ => rfl
  | s :: l, m, tail => by
    rw [writeLogFrom, writeLogFrom_log l, writeLogStep_log]

theorem writeLogFrom_frame :
    ∀ (l : List UInt32) (m : Machine) (tail t : ℕ),
      t < m.log.start + tail + 1 ∨ m.log.start + tail + 1 + l.length ≤ t →
      (m.writeLogFrom tail l).disk t = m.disk t ∧ (m.writeLogFrom tail l).data t = m.data t
  | [], _, _, _, _ => ⟨rfl, rfl⟩
  | s :: l, m, tail, t, h => by
    rw [length_cons] at h
    have hne : t ≠ m.log.start + tail + 1 := by omega
    have ih := writeLogFrom_frame l (m.writeLogStep tail s) (tail + 1) t
      (by rw [writeLogStep_log]; omega)
    rw [writeLogFrom, ih.1, ih.2, writeLogStep_disk, writeLogStep_data]
    exact ⟨update_of_ne hne _ _, update_of_ne hne _ _⟩

/-- **What `write_log` writes.**  Log block `tail + j` receives the cached contents of
the `j`-th sector, on disk and in its buffer. -/
theorem writeLogFrom_copies :
    ∀ (l : List UInt32) (m : Machine) (tail : ℕ),
      (∀ s ∈ l, ¬ m.log.InRegion s.toNat) → tail + l.length < m.log.size →
      ∀ (j : ℕ) (hj : j < l.length),
        (m.writeLogFrom tail l).disk (m.log.start + tail + 1 + j) = m.data l[j].toNat ∧
        (m.writeLogFrom tail l).data (m.log.start + tail + 1 + j) = m.data l[j].toNat
  | s :: l, m, tail, _, _, 0, _ => by
    have hfr := writeLogFrom_frame l (m.writeLogStep tail s) (tail + 1)
      (m.log.start + tail + 1 + 0) (by rw [writeLogStep_log]; omega)
    rw [writeLogFrom, hfr.1, hfr.2, writeLogStep_disk, writeLogStep_data]
    exact ⟨update_self _ _ _, update_self _ _ _⟩
  | s :: l, m, tail, hl, hsz, j + 1, hj => by
    have hj' : j < l.length := Nat.lt_of_succ_lt_succ hj
    rw [length_cons] at hsz
    have ih := writeLogFrom_copies l (m.writeLogStep tail s) (tail + 1)
      (by rw [writeLogStep_log]; exact fun t ht => hl t (mem_cons_of_mem _ ht))
      (by rw [writeLogStep_log]; omega) j hj'
    rw [writeLogStep_log, show m.log.start + (tail + 1) + 1 + j
      = m.log.start + tail + 1 + (j + 1) by omega] at ih
    -- the sector copied next is a home, so the copy just made did not touch it
    have hne : l[j].toNat ≠ m.log.start + tail + 1 := by
      intro heq
      refine hl l[j] (mem_cons_of_mem _ (getElem_mem hj')) ?_
      rw [heq]
      exact ⟨by omega, by omega⟩
    rw [writeLogStep_data, update_of_ne hne] at ih
    exact ih

/-! ## The loop of `install_trans` -/

@[simp] theorem installStep_disk (m : Machine) (tail : ℕ) (s : UInt32) :
    (m.installStep tail s).disk =
      update m.disk s.toNat (m.data (m.log.start + tail + 1)) := by
  simp only [installStep, bread_log, bwrite_disk, bread_disk, bread_data]

@[simp] theorem installStep_data (m : Machine) (tail : ℕ) (s : UInt32) :
    (m.installStep tail s).data =
      update m.data s.toNat (m.data (m.log.start + tail + 1)) := by
  simp only [installStep, bread_log, bwrite_data, bread_data]

@[simp] theorem installStep_log (m : Machine) (tail : ℕ) (s : UInt32) :
    (m.installStep tail s).log = m.log := by
  simp only [installStep, bwrite_log, bread_log]

@[simp] theorem installStep_trace (m : Machine) (tail : ℕ) (s : UInt32) :
    (m.installStep tail s).trace =
      update m.disk s.toNat (m.data (m.log.start + tail + 1)) :: m.trace := by
  simp only [installStep, bread_log, bwrite_trace, bread_disk, bread_data, bread_trace]

@[simp] theorem installFrom_log :
    ∀ (l : List UInt32) (m : Machine) (tail : ℕ), (m.installFrom tail l).log = m.log
  | [], _, _ => rfl
  | s :: l, m, tail => by
    rw [installFrom, installFrom_log l, installStep_log]

/-- The buffers of the log blocks from `tail` on hold `new` at the sectors of `l`. -/
def Copies (m : Machine) (new : Disk) (tail : ℕ) (l : List UInt32) : Prop :=
  ∀ (j : ℕ) (hj : j < l.length), m.data (m.log.start + tail + 1 + j) = new l[j].toNat

theorem Copies.head {new : Disk} {tail : ℕ} {s : UInt32} {l : List UInt32}
    (h : m.Copies new tail (s :: l)) : m.data (m.log.start + tail + 1) = new s.toNat :=
  h 0 (Nat.zero_lt_succ _)

theorem Copies.installStep {new : Disk} {tail : ℕ} {s : UInt32} {l : List UInt32}
    (h : m.Copies new tail (s :: l)) (hs : ¬ m.log.InRegion s.toNat)
    (hsz : tail + (s :: l).length < m.log.size) :
    (m.installStep tail s).Copies new (tail + 1) l := by
  intro j hj
  rw [length_cons] at hsz
  have hj' := h (j + 1) (Nat.succ_lt_succ hj)
  rw [show m.log.start + tail + 1 + (j + 1) = m.log.start + (tail + 1) + 1 + j by omega] at hj'
  have hne : m.log.start + (tail + 1) + 1 + j ≠ s.toNat := by
    intro heq
    refine hs ?_
    rw [← heq]
    exact ⟨by omega, by omega⟩
  rw [installStep_log, installStep_data, update_of_ne hne, hj']
  rfl

theorem installFrom_disk {new : Disk} :
    ∀ (l : List UInt32) (m : Machine) (tail : ℕ),
      (∀ s ∈ l, ¬ m.log.InRegion s.toNat) → tail + l.length < m.log.size →
      m.Copies new tail l → ∀ t, (m.installFrom tail l).disk t = new t ∨
        ((∀ s ∈ l, s.toNat ≠ t) ∧ (m.installFrom tail l).disk t = m.disk t)
  | [], m, tail, _, _, _, t => Or.inr ⟨by simp, rfl⟩
  | s :: l, m, tail, hl, hsz, hc, t => by
    have hs : ¬ m.log.InRegion s.toNat := hl s (mem_cons_self ..)
    have ih := installFrom_disk l (m.installStep tail s) (tail + 1)
      (by rw [installStep_log]; exact fun u hu => hl u (mem_cons_of_mem _ hu))
      (by rw [installStep_log]; rw [length_cons] at hsz; omega)
      (hc.installStep hs hsz) t
    rw [installFrom]
    rcases ih with h | ⟨hnot, h⟩
    · exact Or.inl h
    · rw [h, installStep_disk, hc.head]
      by_cases hst : t = s.toNat
      · left
        rw [hst, update_self]
      · right
        refine ⟨?_, update_of_ne hst _ _⟩
        intro u hu
        rcases mem_cons.mp hu with rfl | hu
        · exact fun h => hst h.symm
        · exact hnot u hu

/-! ## Properties of every disk of a run -/

/-- Every disk of the trace has the property `P`, and the current disk has `Q`. -/
structure Kept (P Q : Disk → Prop) (m : Machine) : Prop where
  trace : ∀ d ∈ m.trace, P d
  disk : Q m.disk

theorem Kept.write {P Q Q' : Disk → Prop} (hQ : ∀ d, Q' d → P d) {m m' : Machine} (h : Kept P Q m)
    (hdisk : m'.disk = d) (htrace : m'.trace = d :: m.trace) (hd : Q' d) : Kept P Q' m' := by
  refine ⟨?_, hdisk ▸ hd⟩
  rw [htrace]
  intro e he
  rcases mem_cons.mp he with rfl | he
  · exact hQ e hd
  · exact h.trace e he

theorem Kept.writeLogFrom {P Q : Disk → Prop} (hQ : ∀ d, Q d → P d) :
    ∀ (l : List UInt32) (m : Machine) (tail : ℕ), Kept P Q m →
      (∀ d i b, Q d → i + 1 < m.log.size → Q (update d (m.log.start + i + 1) b)) →
      tail + l.length < m.log.size → Kept P Q (m.writeLogFrom tail l)
  | [], _, _, h, _, _ => h
  | s :: l, m, tail, h, hP, hsz => by
    rw [length_cons] at hsz
    refine Kept.writeLogFrom hQ l (m.writeLogStep tail s) (tail + 1) ?_ ?_ ?_
    · exact h.write hQ (writeLogStep_disk m tail s) (writeLogStep_trace m tail s)
        (hP _ _ _ h.disk (by omega))
    · rw [writeLogStep_log]
      exact hP
    · rw [writeLogStep_log]
      omega

theorem Kept.installFrom {P Q : Disk → Prop} (hQ : ∀ d, Q d → P d) {new : Disk} :
    ∀ (l : List UInt32) (m : Machine) (tail : ℕ), Kept P Q m →
      (∀ s ∈ l, ¬ m.log.InRegion s.toNat) → tail + l.length < m.log.size →
      m.Copies new tail l →
      (∀ d, ∀ s ∈ l, Q d → Q (update d s.toNat (new s.toNat))) →
      Kept P Q (m.installFrom tail l)
  | [], _, _, h, _, _, _, _ => h
  | s :: l, m, tail, h, hl, hsz, hc, hP => by
    have hs : ¬ m.log.InRegion s.toNat := hl s (mem_cons_self ..)
    refine Kept.installFrom hQ l (m.installStep tail s) (tail + 1) ?_ ?_ ?_
      (hc.installStep hs hsz) ?_
    · refine h.write hQ (installStep_disk m tail s) (installStep_trace m tail s) ?_
      rw [hc.head]
      exact hP _ s (mem_cons_self ..) h.disk
    · rw [installStep_log]
      exact fun u hu => hl u (mem_cons_of_mem _ hu)
    · rw [installStep_log]
      rw [length_cons] at hsz
      omega
    · exact fun d u hu => hP d u (mem_cons_of_mem _ hu)

/-! ## Forming a group -/

/-- What the calls that form a group keep: the disk is untouched, the logged sectors are
homes, and every buffer that differs from the disk is logged and dirty. -/
structure Grouped (m₀ m : Machine) : Prop where
  disk : m.disk = m₀.disk
  start : m.log.start = m₀.log.start
  size : m.log.size = m₀.log.size
  home : ∀ s ∈ m.log.lh, ¬ m₀.log.InRegion s.toNat
  clean : ∀ t b, m.cache t = some b → b.dirty = false → b.data = m.disk t
  dirty : ∀ t b, m.cache t = some b → b.dirty = true → ∃ s ∈ m.log.lh, s.toNat = t

theorem Clean.grouped (h : m.Clean) : Grouped m m where
  disk := rfl
  start := rfl
  size := rfl
  home := by simp [h.lh_nil]
  clean := fun t b hb _ => (h.cache_clean t b hb).2
  dirty := by
    intro t b hb hd
    rw [(h.cache_clean t b hb).1] at hd
    exact absurd hd Bool.false_ne_true

theorem Grouped.bread {m₀ m : Machine} (h : Grouped m₀ m) (s : ℕ) : Grouped m₀ (m.bread s) := by
  rcases hs : m.cache s with _ | b
  · refine ⟨by simpa using h.disk, by simpa using h.start, by simpa using h.size,
      by simpa using h.home, ?_, ?_⟩
    · intro t b hb hd
      simp only [Machine.bread, hs, update_apply] at hb ⊢
      split at hb
      · rename_i hts
        rw [← Option.some.inj hb, hts]
      · exact h.clean t b hb hd
    · intro t b hb hd
      simp only [Machine.bread, hs, update_apply] at hb ⊢
      split at hb
      · rw [← Option.some.inj hb] at hd
        exact absurd hd Bool.false_ne_true
      · exact h.dirty t b hb hd
  · have hm : m.bread s = m := by simp only [Machine.bread, hs]
    rw [hm]
    exact h

theorem Grouped.recycle {m₀ m : Machine} (h : Grouped m₀ m) (s : ℕ) :
    Grouped m₀ (m.recycle s) := by
  unfold Machine.recycle
  split
  · split
    · exact h
    · refine ⟨h.disk, h.start, h.size, h.home, ?_, ?_⟩
      · intro t b hb
        simp only [update_apply] at hb
        split at hb
        · exact absurd hb (by simp)
        · exact h.clean t b hb
      · intro t b hb
        simp only [update_apply] at hb
        split at hb
        · exact absurd hb (by simp)
        · exact h.dirty t b hb
  · exact h

theorem Grouped.data_recycle {m₀ m : Machine} (h : Grouped m₀ m) (s : ℕ) :
    (m.recycle s).data = m.data := by
  unfold Machine.recycle
  split
  · rename_i b hb
    split
    · rfl
    · rename_i hd
      funext t
      by_cases hts : t = s
      · subst hts
        simp only [data, update_self, hb]
        exact (h.clean t b hb (by simpa using hd)).symm
      · simp only [data, update_of_ne hts]
  · rfl

theorem Grouped.logAppend {m₀ m : Machine} (h : Grouped m₀ m) {s : UInt32} (d : Block)
    (hs : ¬ m₀.log.InRegion s.toNat) : Grouped m₀ (m.logAppend s d) := by
  refine ⟨h.disk, ?_, ?_, ?_, ?_, ?_⟩
  · rw [Machine.logAppend, Log.record_start, h.start]
  · rw [Machine.logAppend, Log.record_size, h.size]
  · intro t ht
    rcases (Log.mem_lh_record _ _ _).mp ht with ht | rfl
    · exact h.home t ht
    · exact hs
  · intro t b hb hd
    simp only [Machine.logAppend, update_apply] at hb
    split at hb
    · rw [← Option.some.inj hb] at hd
      exact absurd hd (by simp)
    · exact h.clean t b hb hd
  · intro t b hb hd
    simp only [Machine.logAppend, update_apply] at hb
    split at hb
    · rename_i hts
      exact ⟨s, (Log.mem_lh_record _ _ _).mpr (Or.inr rfl), hts.symm⟩
    · obtain ⟨u, hu, hut⟩ := h.dirty t b hb hd
      exact ⟨u, (Log.mem_lh_record _ _ _).mpr (Or.inl hu), hut⟩

theorem logTest_eq {m m' : Machine} (h : m.logTest = .ok m') : m' = m := by
  unfold Machine.logTest at h
  split at h
  · exact absurd h (by simp)
  split at h
  · exact absurd h (by simp)
  · exact (Except.ok.inj h).symm

theorem data_logAppend (m : Machine) (s : UInt32) (d : Block) :
    (m.logAppend s d).data = update m.data s.toNat d := by
  funext t
  by_cases hts : t = s.toNat
  · simp only [logAppend, data, hts, update_self]
  · simp only [logAppend, data, update_of_ne hts]

/-- **The calls of a group.**  They keep `Grouped`, and the buffers then hold what the
calls asked for. -/
theorem Grouped.bufOps {m₀ : Machine} :
    ∀ (ops : List BufOp) {m m' : Machine}, Grouped m₀ m → (∀ op ∈ ops, op.Home m₀.log) →
      m.bufOps ops = .ok m' → Grouped m₀ m' ∧ m'.data = written m.data ops
  | [], m, m', h, _, hm => by
    rw [Machine.bufOps, Except.ok.injEq] at hm
    subst hm
    exact ⟨h, rfl⟩
  | op :: ops, m, m', h, hop, hm => by
    have hrest : ∀ op ∈ ops, op.Home m₀.log := fun o ho => hop o (mem_cons_of_mem _ ho)
    rw [Machine.bufOps] at hm
    rcases hstep : m.bufOp op with p | m₁
    · rw [hstep] at hm
      exact absurd hm (by simp [bind, Except.bind])
    · rw [hstep] at hm
      replace hm : m₁.bufOps ops = .ok m' := hm
      cases op with
      | read s =>
        rw [bufOp, Except.ok.injEq] at hstep
        subst hstep
        have ih := Grouped.bufOps ops (h.bread s.toNat) hrest hm
        rw [bread_data] at ih
        exact ih
      | recycle s =>
        rw [bufOp, Except.ok.injEq] at hstep
        subst hstep
        have ih := Grouped.bufOps ops (h.recycle s.toNat) hrest hm
        rw [h.data_recycle] at ih
        exact ih
      | test =>
        rw [bufOp] at hstep
        rw [logTest_eq hstep] at hm
        exact Grouped.bufOps ops h hrest hm
      | append s d =>
        rw [bufOp, Except.ok.injEq] at hstep
        subst hstep
        have hs : ¬ m₀.log.InRegion s.toNat := hop (.append s d) (mem_cons_self ..)
        have ih := Grouped.bufOps ops ((h.bread s.toNat).logAppend d hs) hrest hm
        rw [data_logAppend, bread_data] at ih
        exact ih

end Machine

/-! ## The three kinds of disk -/

/-- A group of logged sectors about to be committed: where the log is, the sectors, the
disk before the commit and the contents after it. -/
structure Group where
  log : Log
  sectors : List UInt32
  old : Disk
  new : Disk
  home : ∀ s ∈ sectors, ¬ log.InRegion s.toNat
  fits : sectors.length ≤ logSize
  room : sectors.length < log.size
  unlogged : ∀ t, (∀ s ∈ sectors, s.toNat ≠ t) → new t = old t

namespace Group

open Machine

variable (g : Group)

/-- Nothing has been committed. -/
structure Before (d : Disk) : Prop where
  header : headerN (d g.log.start) = 0
  homes : ∀ t, ¬ g.log.InRegion t → d t = g.old t

/-- The group is committed, and some of it may be installed. -/
structure During (d : Disk) : Prop where
  header : getHeader (d g.log.start) = g.sectors
  copies : ∀ (j : ℕ) (hj : j < g.sectors.length),
    d (g.log.start + 0 + 1 + j) = g.new g.sectors[j].toNat
  homes : ∀ t, ¬ g.log.InRegion t → d t = g.old t ∨ d t = g.new t

/-- All of the group is installed. -/
structure After (d : Disk) : Prop where
  header : headerN (d g.log.start) = 0
  homes : ∀ t, ¬ g.log.InRegion t → d t = g.new t

/-- One of the three kinds of disk that a crash can leave. -/
def Kind (d : Disk) : Prop := g.Before d ∨ g.During d ∨ g.After d

variable {g}

theorem inRegion_start : g.log.InRegion g.log.start :=
  ⟨le_refl _, Nat.lt_add_of_pos_right (lt_of_le_of_lt (Nat.zero_le _) g.room)⟩

theorem ne_start {t : ℕ} (ht : ¬ g.log.InRegion t) : t ≠ g.log.start := by
  rintro rfl
  exact ht inRegion_start

theorem Before.write_log (h : g.Before d) {i : ℕ} (b : Block) (hi : i + 1 < g.log.size) :
    g.Before (update d (g.log.start + i + 1) b) := by
  constructor
  · rw [update_of_ne (by omega)]
    exact h.header
  · intro t ht
    rw [update_of_ne, h.homes t ht]
    rintro rfl
    exact ht ⟨by omega, by omega⟩

theorem During.install (h : g.During d) {s : UInt32} (hs : s ∈ g.sectors) :
    g.During (update d s.toNat (g.new s.toNat)) := by
  have hr := g.room
  constructor
  · rw [update_of_ne (ne_start (g.home s hs)).symm]
    exact h.header
  · intro j hj
    rw [update_of_ne, h.copies j hj]
    intro heq
    exact g.home s hs (heq ▸ ⟨by omega, by omega⟩)
  · intro t ht
    by_cases hts : t = s.toNat
    · right
      rw [hts, update_self]
    · rw [update_of_ne hts]
      exact h.homes t ht

theorem after_of_erase (b : Block) (h : ∀ t, ¬ g.log.InRegion t → d t = g.new t) :
    g.After (update d g.log.start (putHeader b [])) := by
  constructor
  · rw [update_self, headerN_putHeader b (Nat.zero_le _)]
    rfl
  · intro t ht
    rw [update_of_ne (ne_start ht), h t ht]

theorem kind_of_before (d : Disk) (h : g.Before d) : g.Kind d := Or.inl h

theorem kind_of_during (d : Disk) (h : g.During d) : g.Kind d := Or.inr (Or.inl h)

theorem kind_of_after (d : Disk) (h : g.After d) : g.Kind d := Or.inr (Or.inr h)

/-- **Installing a committed group and erasing the header.**  From a machine whose disk
is `During` and whose log buffers hold the copies, every disk on the way is one of the
three kinds, and the last one is `After`. -/
theorem install_erase (hk : Kept g.Kind g.During m) (hstart : m.log.start = g.log.start)
    (hsize : m.log.size = g.log.size) (hlh : m.log.lh = g.sectors) (hc : m.Copies g.new 0 g.sectors) :
    Kept g.Kind g.After m.installTrans.clearHead.writeHead := by
  have hhome : ∀ s ∈ g.sectors, ¬ m.log.InRegion s.toNat := by
    intro s hs
    rw [Log.InRegion, hstart, hsize]
    exact g.home s hs
  have hroom : 0 + g.sectors.length < m.log.size := by
    rw [hsize, zero_add]
    exact g.room
  have hinst : Kept g.Kind g.During (m.installFrom 0 g.sectors) :=
    hk.installFrom kind_of_during _ _ _ hhome hroom hc fun _ _ hs hd => hd.install hs
  -- after the last round every home sector is new
  have hnew : ∀ t, ¬ g.log.InRegion t → (m.installFrom 0 g.sectors).disk t = g.new t := by
    intro t ht
    rcases installFrom_disk g.sectors m 0 hhome hroom hc t with h | ⟨hnot, h⟩
    · exact h
    · rw [h, g.unlogged t hnot]
      rcases hk.disk.homes t ht with h' | h'
      · exact h'
      · rw [h', g.unlogged t hnot]
  rw [installTrans, hlh]
  refine hinst.write kind_of_after ?_ ?_
    (after_of_erase ((m.installFrom 0 g.sectors).clearHead.data g.log.start) hnew)
  · simp only [writeHead, bread_log, bwrite_disk, bread_disk, bread_data, clearHead,
      installFrom_log, hstart]
  · simp only [writeHead, bread_log, bwrite_trace, bread_disk, bread_data, bread_trace,
      clearHead, installFrom_log, hstart]

/-- The machine that is about to commit the group: its log is the group's log, and its
buffers hold the new contents. -/
structure Loaded (g : Group) (m : Machine) : Prop where
  start : m.log.start = g.log.start
  size : m.log.size = g.log.size
  lh : m.log.lh = g.sectors
  data : m.data = g.new

theorem Loaded.writeLog (hm : g.Loaded m) (hk : Kept g.Kind g.Before m) :
    Kept g.Kind g.Before m.writeLog ∧
      ∀ (j : ℕ) (hj : j < g.sectors.length),
        m.writeLog.disk (g.log.start + 0 + 1 + j) = g.new g.sectors[j].toNat ∧
        m.writeLog.data (g.log.start + 0 + 1 + j) = g.new g.sectors[j].toNat := by
  have hhome : ∀ s ∈ g.sectors, ¬ m.log.InRegion s.toNat := by
    intro s hs
    rw [Log.InRegion, hm.start, hm.size]
    exact g.home s hs
  have hroom : 0 + g.sectors.length < m.log.size := by
    rw [hm.size, zero_add]
    exact g.room
  rw [Machine.writeLog, hm.lh]
  refine ⟨?_, ?_⟩
  · refine hk.writeLogFrom kind_of_before _ _ _ ?_ hroom
    rw [hm.start, hm.size]
    exact fun _ _ b hd hi => hd.write_log b hi
  · have hcopies := writeLogFrom_copies g.sectors m 0 hhome hroom
    rw [hm.start, hm.data] at hcopies
    exact hcopies

/-- **The true point of commitment.**  Writing the header after `write_log` makes the
disk `During`. -/
theorem Loaded.writeHead (hm : g.Loaded m) (hk : Kept g.Kind g.Before m) :
    Kept g.Kind g.During m.writeLog.writeHead ∧
      m.writeLog.writeHead.Copies g.new 0 g.sectors := by
  obtain ⟨hk₁, hcopies⟩ := hm.writeLog hk
  have hlog : m.writeLog.log = m.log := writeLogFrom_log _ _ _
  refine ⟨hk₁.write (d := update m.writeLog.disk g.log.start
    (putHeader (m.writeLog.data g.log.start) g.sectors)) kind_of_during ?_ ?_ ?_, ?_⟩
  · simp only [Machine.writeHead, bread_log, bwrite_disk, bread_disk, bread_data, hlog, hm.start,
      hm.lh]
  · simp only [Machine.writeHead, bread_log, bwrite_trace, bread_disk, bread_data, bread_trace,
      hlog, hm.start, hm.lh]
  · constructor
    · rw [update_self, getHeader_putHeader _ g.fits]
    · intro j hj
      rw [update_of_ne (by omega), (hcopies j hj).1]
    · intro t ht
      rw [update_of_ne (ne_start ht)]
      exact Or.inl (hk₁.disk.homes t ht)
  · intro j hj
    simp only [Machine.writeHead, bread_log, bwrite_data, bwrite_log, bread_data, hlog, hm.start]
    rw [update_of_ne (by omega), (hcopies j hj).2]

end Group

/-! ## The theorem -/

open Machine

end Xv6
