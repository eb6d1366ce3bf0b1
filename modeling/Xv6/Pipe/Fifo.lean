import Xv6.Pipe.Basic

/-!
# Pipes are queues

What readers have been given, followed by what is in `p->data`, is what writers have
stored; no more than `PIPESIZE` bytes are ever in between.  This is one invariant of one
byte's transfer, and the loops of `pipewrite` and `piperead` keep it because they only
store while the pipe is not full and only take while it is not empty.  The counters may
have wrapped around any number of times: all that the invariant speaks of is the
difference between them.
-/

namespace Xv6.Pipes

open List Transition

variable {ι : Type} [DecidableEq ι] {S S' : PipeSys ι} {t : ι}

theorem pipesize_dvd : pipesize ∣ 2 ^ 32 := by decide

theorem pipesize_lt : pipesize < 2 ^ 32 := by decide

namespace PipeSys

@[simp] theorem put_pipe (S : PipeSys ι) (t : ι) (s : Status) : (S.put t s).pipe = S.pipe := rfl

/-- What was stored is what was delivered and then what is in the pipe, which is not
more than the pipe can hold. -/
structure Queue (S : PipeSys ι) : Prop where
  stored : S.stored = S.delivered ++ S.pipe.contents
  length : S.pipe.length ≤ pipesize

section

omit [DecidableEq ι]

theorem Queue.of_eq (h : S.Queue) (hr : S'.pipe.toRing = S.pipe.toRing := by rfl)
    (hs : S'.stored = S.stored := by rfl) (hd : S'.delivered = S.delivered := by rfl) :
    S'.Queue where
  stored := by rw [hs, hd, hr, h.stored]
  length := by rw [hr]; exact h.length

theorem Queue.lt_of_not_full (h : S.Queue) (hf : S.pipe.isFull = false) :
    S.pipe.length < pipesize := by
  refine lt_of_le_of_ne h.length fun he => ?_
  rw [(Ring.isFull_iff pipesize_lt _).mpr he] at hf
  exact Bool.noConfusion hf

theorem Queue.store (h : S.Queue) (hf : S.pipe.isFull = false) (b : UInt8) : (S.store b).Queue := by
  have hlt := h.lt_of_not_full hf
  constructor
  · show S.stored ++ [b] = S.delivered ++ (S.pipe.push b).contents
    rw [Ring.contents_push pipesize_dvd pipesize_lt _ b hlt, h.stored, append_assoc]
  · show (S.pipe.push b).length ≤ pipesize
    rw [Ring.length_push _ b (by have := pipesize_lt; omega)]
    omega

theorem Queue.take (h : S.Queue) (he : S.pipe.isEmpty = false) : S.take.Queue := by
  have hpos : 0 < S.pipe.length := by
    refine Nat.pos_of_ne_zero fun h0 => ?_
    rw [(Ring.isEmpty_iff _).mpr h0] at he
    exact Bool.noConfusion he
  constructor
  · show S.stored = S.delivered ++ [S.pipe.front] ++ S.pipe.pop.contents
    rw [h.stored, Ring.contents_pop _ hpos, append_assoc, singleton_append]
  · show S.pipe.pop.length ≤ pipesize
    rw [Ring.length_pop _ hpos]
    have := h.length
    omega

theorem Queue.fill (addr : ℕ → UInt8) :
    ∀ (k i : ℕ) {S : PipeSys ι}, S.Queue → (S.fill addr k i).2.Queue
  | 0, _, _, h => h
  | k + 1, i, S, h => by
    unfold PipeSys.fill
    split
    · exact h
    · rename_i hf
      exact Queue.fill addr k (i + 1) (h.store (by simpa using hf) (addr i))

theorem Queue.drain : ∀ (k : ℕ) {S : PipeSys ι}, S.Queue → (S.drain k).2.Queue
  | 0, _, h => h
  | k + 1, S, h => by
    unfold PipeSys.drain
    split
    · exact h
    · rename_i he
      exact Queue.drain k (h.take (by simpa using he))

theorem length_delivered_drain :
    ∀ (k : ℕ) (S : PipeSys ι), (S.drain k).2.delivered.length = S.delivered.length + (S.drain k).1
  | 0, _ => rfl
  | k + 1, S => by
    unfold PipeSys.drain
    split
    · rfl
    · rw [length_delivered_drain k S.take]
      show (S.delivered ++ [S.pipe.front]).length + _ = _
      rw [length_append, length_singleton]
      dsimp only
      omega

end

theorem Queue.pipewrite (h : S.Queue) (t : ι) (addr : ℕ → UInt8) (n : ℤ) (i : ℕ) :
    (S.pipewrite t addr n i).2.Queue := by
  have hq := h.fill addr (n.toNat - i) i
  unfold PipeSys.pipewrite
  dsimp only
  split
  · exact hq.of_eq
  · split
    · exact hq.of_eq
    · exact hq.of_eq

theorem Queue.piperead (h : S.Queue) (t : ι) (n : ℤ) : (S.piperead t n).2.Queue := by
  have hq := h.drain n.toNat
  unfold PipeSys.piperead
  split
  · split
    · exact h.of_eq
    · exact h.of_eq
  · exact hq.of_eq

omit [DecidableEq ι] in
theorem Queue.pipeclose (h : S.Queue) (writable : Bool) : (S.pipeclose writable).Queue := by
  unfold PipeSys.pipeclose
  split
  · exact h.of_eq
  · exact h.of_eq

theorem eof_of_piperead_eq_zero {n : ℤ} (hn : 0 < n) (h : (S.piperead t n).1 = some 0) :
    S.pipe.isEmpty = true ∧ S.pipe.writeopen = false := by
  obtain ⟨k, hk⟩ : ∃ k, n.toNat = k + 1 := ⟨n.toNat - 1, by omega⟩
  unfold PipeSys.piperead at h
  split at h
  · split at h
    · cases h
    · cases h
  · rename_i hne
    rw [hk] at h
    unfold PipeSys.drain at h
    split at h
    · rename_i he
      refine ⟨he, ?_⟩
      rw [← Bool.not_eq_true]
      exact fun hw => hne ⟨he, hw⟩
    · simp only [Option.some.injEq] at h
      omega

theorem length_delivered_piperead {n r : ℤ} (h : (S.piperead t n).1 = some r) (hr : 0 ≤ r) :
    ((S.piperead t n).2.delivered.length : ℤ) = S.delivered.length + r := by
  unfold PipeSys.piperead at h ⊢
  split at h
  · split at h
    · cases h
      omega
    · cases h
  · cases h
    rename_i hne
    rw [if_neg hne]
    show (((S.drain n.toNat).2.delivered.length : ℕ) : ℤ) = _
    rw [length_delivered_drain]
    omega

end PipeSys

open PipeSys

theorem queue_of_moves {a : PipeAct ι} (h : S.Queue) (hm : Moves S a S') : S'.Queue := by
  cases hm with
  | write => exact h.pipewrite _ _ _ _
  | read => exact h.piperead _ _
  | close => exact h.pipeclose _
  | kill => exact h.of_eq

omit [DecidableEq ι] in
theorem queue_of_opened (h : Opened S) : S.Queue := by
  have h0 : S.pipe.length = 0 := by
    rw [Ring.length, h.nread, h.nwrite]
    rfl
  constructor
  · rw [h.stored, h.delivered, Ring.contents, h0]
    rfl
  · rw [h0]
    exact Nat.zero_le _

/-- **Pipes are lossless queues.**  Whatever any number of threads do, and however often
the counters wrap: the bytes delivered are a prefix of the bytes stored, and the rest are
in the pipe; `nwrite - nread` is at most `PIPESIZE`; a read delivers as many bytes as it
returns; and it returns `0`, when asked for more, only if the pipe is empty and its write
end closed. -/
theorem pipe_fifo (h : Reach step anyStep Opened S) :
    S.delivered <+: S.stored ∧ S.stored = S.delivered ++ S.pipe.contents ∧
    (S.pipe.nwrite - S.pipe.nread).toNat ≤ pipesize ∧
    (∀ t n r, (S.piperead t n).1 = some r → 0 ≤ r →
      ((S.piperead t n).2.delivered.length : ℤ) = S.delivered.length + r) ∧
    ∀ t n, 0 < n → (S.piperead t n).1 = some 0 →
      S.pipe.isEmpty = true ∧ S.pipe.writeopen = false := by
  have hq : S.Queue := by
    refine Reach.invariant (I := PipeSys.Queue) (fun S hS => queue_of_opened hS) ?_ h
    intro S a S' hS _ hs
    exact queue_of_moves hS (Moves.of_step hs)
  refine ⟨?_, hq.stored, hq.length, fun t n r => length_delivered_piperead, fun t n =>
    eof_of_piperead_eq_zero⟩
  rw [hq.stored]
  exact prefix_append _ _

/-- A pipe that nobody has used. -/
def opened : PipeSys Bool where
  pipe := { data := fun _ => 0, nread := 0, nwrite := 0, readopen := true, writeopen := true }
  thread := fun _ => .outside
  killed := fun _ => false
  stored := []
  delivered := []

theorem opened_opened : Opened opened := ⟨rfl, rfl, rfl, rfl, fun _ => rfl, rfl, rfl⟩

/-- One thread writes three bytes, the other reads two of them. -/
theorem pipe_fifo_twoOfThree :
    ∃ S : PipeSys Bool, Reach step anyStep Opened S ∧ S.delivered = [1, 2] ∧
      S.delivered <+: S.stored := by
  have he : endsIn step opened [.write true (fun i => UInt8.ofNat (i + 1)) 3, .read false 2]
      (fun S => S.delivered == [1, 2]) = true := by decide +kernel
  obtain ⟨S, hS, hd⟩ := Reach.of_endsIn opened_opened he
  exact ⟨S, hS, by simpa using hd, (pipe_fifo hS).1⟩

end Xv6.Pipes
