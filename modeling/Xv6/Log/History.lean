import Xv6.Log.CrashAtomicity

/-!
# The log over any number of transactions

`Log.CrashAtomicity` is about one group.  Here the machine lives on: it commits groups one after
the other, crashes in the middle of some of them, crashes again while it recovers, and goes on
with what recovery has left.  For that `commit` and `recover_from_log` have to leave a machine
with no group open, whose buffers are those of the disk (`Machine.Clean`).
-/

namespace Xv6

open Function List

variable {m m₀ m' : Machine} {X : List UInt32} {ops : List Machine.BufOp}

namespace Machine

/-- Every buffer but those of the sectors of `X` is clean and holds what the disk holds. -/
def CleanBut (m : Machine) (X : List UInt32) : Prop :=
  ∀ t b, m.cache t = some b → (∀ s ∈ X, s.toNat ≠ t) → b.dirty = false ∧ b.data = m.disk t

theorem CleanBut.bread (h : m.CleanBut X) (s : ℕ) : (m.bread s).CleanBut X := by
  intro t b hb ht
  rw [bread_disk]
  rw [Machine.bread] at hb
  split at hb
  · exact h t b hb ht
  · dsimp only at hb
    by_cases hts : t = s
    · subst hts
      rw [update_self] at hb
      cases hb
      exact ⟨rfl, rfl⟩
    · rw [update_of_ne hts] at hb
      exact h t b hb ht

/-- The buffer that is written need not have been clean. -/
theorem cleanBut_bwrite {n : ℕ} (d : Block) (h : ∀ t b, t ≠ n → m.cache t = some b →
    (∀ s ∈ X, s.toNat ≠ t) → b.dirty = false ∧ b.data = m.disk t) : (m.bwrite n d).CleanBut X := by
  intro t b hb ht
  replace hb : update m.cache n (some ⟨d, false⟩) t = some b := hb
  by_cases htn : t = n
  · subst htn
    rw [update_self] at hb
    cases hb
    exact ⟨rfl, by rw [bwrite_disk, update_self]⟩
  · rw [bwrite_disk, update_of_ne htn]
    rw [update_of_ne htn] at hb
    exact h t b htn hb ht

theorem CleanBut.bwrite (h : m.CleanBut X) (n : ℕ) (d : Block) : (m.bwrite n d).CleanBut X :=
  cleanBut_bwrite d fun t b _ => h t b

theorem CleanBut.writeLogFrom {l : List UInt32} (h : m.CleanBut X) (tail : ℕ) :
    (m.writeLogFrom tail l).CleanBut X := by
  induction l generalizing m tail with
  | nil => exact h
  | cons s l ih => exact ih (((h.bread _).bread _).bwrite _ _) _

theorem CleanBut.writeHead (h : m.CleanBut X) : m.writeHead.CleanBut X := (h.bread _).bwrite _ _

/-- After the loop of `install_trans` all buffers are clean. -/
theorem CleanBut.installFrom (h : m.CleanBut X) (tail : ℕ) : (m.installFrom tail X).CleanBut [] := by
  induction X generalizing m tail with
  | nil => exact h
  | cons s X ih =>
    refine ih (cleanBut_bwrite _ fun t b hts hb ht => ?_) _
    refine ((h.bread _).bread _) t b hb fun u hu => ?_
    obtain rfl | hu := mem_cons.mp hu
    · exact hts.symm
    · exact ht u hu

theorem log_installed (m : Machine) :
    m.installTrans.clearHead.writeHead.log = { m.log with lh := [] } := by
  simp [Machine.writeHead, clearHead, installTrans]

/-- Where `install_trans` and the last `write_head` leave the machine. -/
theorem CleanBut.clean (h : m.CleanBut m.log.lh)
    (hn : headerN (m.installTrans.clearHead.writeHead.disk m.log.start) = 0) :
    m.installTrans.clearHead.writeHead.Clean := by
  refine ⟨by rw [log_installed], fun t b hb => ?_, by rw [log_installed]; exact hn⟩
  have hinst : m.installTrans.clearHead.CleanBut [] := h.installFrom 0
  exact hinst.writeHead t b hb (by simp)

theorem written_append (d : Disk) (ops ops' : List BufOp) :
    written d (ops ++ ops') = written (written d ops) ops' := by
  induction ops generalizing d with
  | nil => rfl
  | cons op ops ih => cases op <;> exact ih _

theorem written_congr {R : ℕ → Prop} {d d' : Disk} (h : ∀ t, R t → d t = d' t) :
    ∀ t, R t → written d ops t = written d' ops t := by
  induction ops generalizing d d' with
  | nil => exact h
  | cons op ops ih =>
    cases op with
    | append s b =>
      refine ih fun t ht => ?_
      by_cases hts : t = s.toNat
      · rw [hts, update_self, update_self]
      · rw [update_of_ne hts, update_of_ne hts, h t ht]
    | _ => exact ih h

/-- The calls `ops` form a group that fits. -/
structure Forms (m : Machine) (ops : List BufOp) (m' : Machine) : Prop where
  home : ∀ op ∈ ops, op.Home m.log
  run : m.bufOps ops = .ok m'
  fits : m'.log.lh.length ≤ logSize
  room : m'.log.lh.length < m.log.size

/-- The group that the calls form. -/
theorem Forms.group (h : Forms m ops m') (hclean : m.Clean) : ∃ g : Group, g.log = m.log ∧
    g.old = m.disk ∧ g.new = written m.disk ops ∧ g.Loaded m' ∧ g.Before m'.disk ∧
      m'.CleanBut m'.log.lh := by
  obtain ⟨hg, hdata⟩ := hclean.grouped.bufOps ops h.home h.run
  have hbut : m'.CleanBut m'.log.lh := by
    intro t b hb ht
    have hdirty : b.dirty = false := by
      by_contra hd
      obtain ⟨s, hs, hst⟩ := hg.dirty t b hb (by simpa using hd)
      exact ht s hs hst
    exact ⟨hdirty, hg.clean t b hb hdirty⟩
  have heq : m.data = m.disk := by
    funext t
    rw [data]
    split
    · next b hb => exact (hclean.cache_clean t b hb).2
    · rfl
  have hunlogged : ∀ t, (∀ s ∈ m'.log.lh, s.toNat ≠ t) → m'.data t = m.disk t := by
    intro t ht
    rw [← hg.disk, data]
    split
    · next b hb => exact (hbut t b hb ht).2
    · rfl
  rw [heq] at hdata
  refine ⟨⟨m.log, m'.log.lh, m.disk, m'.data, hg.home, h.fits, h.room, hunlogged⟩, rfl, rfl, hdata,
    ⟨hg.start, hg.size, rfl, rfl⟩, ⟨?_, fun t _ => by rw [hg.disk]⟩, hbut⟩
  rw [hg.disk]
  exact hclean.header

/-- A `commit` that returns has written the group. -/
theorem Forms.commit (h : Forms m ops m') (hclean : m.Clean) :
    ({ m' with trace := [] } : Machine).commit.Clean ∧
    ({ m' with trace := [] } : Machine).commit.log.InRegion = m.log.InRegion ∧
    ∀ t, ¬ m.log.InRegion t →
      ({ m' with trace := [] } : Machine).commit.disk t = written m.disk ops t := by
  obtain ⟨g, hlog, hold, hnew, hm, hb, hbut⟩ := h.group hclean
  have hregion : m'.log.InRegion = g.log.InRegion := by
    funext t
    rw [Log.InRegion, hm.start, hm.size]
    rfl
  rw [← hlog, ← hnew, ← hregion, Machine.commit]
  split_ifs with hn
  · obtain ⟨hk, hc⟩ := Group.Loaded.writeHead (m := { m' with trace := [] })
      ⟨hm.start, hm.size, hm.lh, hm.data⟩ ⟨by simp, hb⟩
    have hlog' : ({ m' with trace := [] } : Machine).writeLog.writeHead.log = m'.log := by
      simp [Machine.writeHead, writeLog]
    have hafter := (Group.install_erase hk (by rw [hlog', hm.start]) (by rw [hlog', hm.size])
      (by rw [hlog', hm.lh]) hc).disk
    refine ⟨CleanBut.clean ?_ (by rw [hlog', hm.start]; exact hafter.header), ?_,
      hregion ▸ hafter.homes⟩
    · rw [hlog']
      exact (CleanBut.writeLogFrom (m := { m' with trace := [] }) hbut 0).writeHead
    · rw [log_installed, hlog']
      rfl
  · have hnil : m'.log.lh = [] := by simpa using hn
    rw [hnil] at hbut
    refine ⟨⟨hnil, fun t b ht => hbut t b ht (by simp), ?_⟩, rfl, fun t ht => ?_⟩
    · exact (congrArg (fun t => headerN (m'.disk t)) hm.start).trans hb.header
    · rw [hregion] at ht
      exact (hb.homes t ht).trans (g.unlogged t (by simp [← hm.lh, hnil])).symm

/-- What the machine has come to, in a life that began with `m₀`: no group is open; and outside the
log region the disk holds, over what was there, the groups whose `commit` has returned, in
order, and among them some of the others, each as a whole. -/
structure Durable (m₀ : Machine) (hist : List (List BufOp × Bool)) (m : Machine) : Prop where
  clean : m.Clean
  region : m.log.InRegion = m₀.log.InRegion
  kept : ∃ kept, kept <+ hist ∧ hist.filter (·.2) <+ kept ∧ ∀ t, ¬ m₀.log.InRegion t →
    m.disk t = written m₀.disk (kept.flatMap (·.1)) t

variable {hist : List (List BufOp × Bool)} {done : Bool}

/-- One group more, which has been written, or has not been and need not be. -/
theorem Durable.next (h : Durable m₀ hist m) (hclean : m'.Clean)
    (hregion : m'.log.InRegion = m.log.InRegion)
    (hdisk : (done = false ∧ ∀ t, ¬ m.log.InRegion t → m'.disk t = m.disk t) ∨
      ∀ t, ¬ m.log.InRegion t → m'.disk t = written m.disk ops t) :
    Durable m₀ (hist ++ [(ops, done)]) m' := by
  obtain ⟨kept, hsub, hall, hkept⟩ := h.kept
  rw [h.region] at hregion hdisk
  refine ⟨hclean, hregion, ?_⟩
  obtain ⟨rfl, hdisk⟩ | hdisk := hdisk
  · refine ⟨kept, hsub.trans (sublist_append_left _ _), by simpa using hall, fun t ht => ?_⟩
    rw [hdisk t ht, hkept t ht]
  · refine ⟨kept ++ [(ops, done)], hsub.append_right _, ?_, fun t ht => ?_⟩
    · rw [filter_append]
      exact hall.append filter_sublist
    · rw [hdisk t ht, flatMap_append, written_append, flatMap_singleton]
      exact written_congr hkept t ht

end Machine
end Xv6
