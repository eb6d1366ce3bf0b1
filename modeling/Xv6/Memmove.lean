import Mathlib.Algebra.Order.Ring.Nat
import Mathlib.Data.UInt
import Mathlib.Tactic.Common
import Xv6.Lib.Copy

/-!
# The two functions `memmove`

`string.c` copies downwards if the destination begins inside the source, and upwards otherwise;
`ulib.c` always copies upwards.  With overlapping ranges the first is right in every case.  The
second, where the destination begins inside the source, repeats the first bytes of the source
again and again, and is right only if that is what the source was.
-/

namespace Xv6.Memmove

open List

abbrev Mem := UInt32 → UInt8

/-! ## The code -/

/-- `while(n-- > 0) *d++ = *s++;` -/
def copyUp : ℕ → Mem → UInt32 → UInt32 → Mem
  | 0, mem, _, _ => mem
  | n + 1, mem, d, s => copyUp n (Function.update mem d (mem s)) (d + 1) (s + 1)

/-- `while(n-- > 0) *--d = *--s;` -/
def copyDown : ℕ → Mem → UInt32 → UInt32 → Mem
  | 0, mem, _, _ => mem
  | n + 1, mem, d, s => copyDown n (Function.update mem (d - 1) (mem (s - 1))) (d - 1) (s - 1)

/-- `memmove` of `string.c`: the memory afterwards, and the value returned. -/
def Kern.memmove (mem : Mem) (dst src n : UInt32) : Mem × UInt32 :=
  if src < dst ∧ src + n > dst then (copyDown n.toNat mem (dst + n) (src + n), dst)
  else (copyUp n.toNat mem dst src, dst)

/-- `memmove` of `ulib.c`, whose `n` is signed. -/
def Ulib.memmove (mem : Mem) (dst src : UInt32) (n : Int32) : Mem × UInt32 :=
  (copyUp n.toNatClampNeg mem dst src, dst)

/-! ## What it is for -/

/-- The `n` bytes at `dst` are what was at `src`, and every other byte is as it was. -/
structure Moved (mem mem' : Mem) (dst src : UInt32) (n : ℕ) : Prop where
  bytes : ∀ i < n, mem' (dst + .ofNat i) = mem (src + .ofNat i)
  frame : ∀ a, (∀ i < n, a ≠ dst + .ofNat i) → mem' a = mem a

/-- The bytes at `src` repeat after `dst - src` bytes. -/
def Repeats (mem : Mem) (dst src : UInt32) (n : ℕ) : Prop :=
  ∀ i, i + (dst.toNat - src.toNat) < n →
    mem (src + .ofNat (i + (dst.toNat - src.toNat))) = mem (src + .ofNat i)

variable {mem mem' mem₁ : Mem} {dst src : UInt32} {n i j : ℕ}

theorem Moved.unique (h : Moved mem mem' dst src n) (h₁ : Moved mem mem₁ dst src n) :
    mem' = mem₁ := by
  funext a
  by_cases ha : ∃ i < n, a = dst + .ofNat i
  · obtain ⟨i, hi, rfl⟩ := ha
    rw [h.bytes i hi, h₁.bytes i hi]
  · have hout : ∀ i < n, a ≠ dst + .ofNat i := fun i hi he => ha ⟨i, hi, he⟩
    rw [h.frame a hout, h₁.frame a hout]

/-! ## The loops -/

theorem add_ofNat_succ (d : UInt32) (i : ℕ) : d + .ofNat (i + 1) = d + 1 + .ofNat i := by
  rw [UInt32.ofNat_add, UInt32.add_assoc, UInt32.add_comm (.ofNat i)]
  rfl

theorem copyUp_eq : copyUp n mem dst src =
    Copy.run (dst + .ofNat ·) (src + .ofNat ·) (List.range n) mem := by
  induction n generalizing mem dst src with
  | zero => rfl
  | succ n ih =>
    rw [copyUp, ih, range_succ_eq_map, Copy.run_cons, Copy.run, Copy.run, foldl_map]
    simp only [Nat.succ_eq_add_one, add_ofNat_succ]
    simp

theorem copyDown_eq : copyDown n mem (dst + .ofNat n) (src + .ofNat n) =
    Copy.run (dst + .ofNat ·) (src + .ofNat ·) (List.range n).reverse mem := by
  induction n generalizing mem with
  | zero => rfl
  | succ n ih =>
    have hpred : ∀ d : UInt32, d + .ofNat (n + 1) - 1 = d + .ofNat n := by
      intro d
      rw [add_ofNat_succ, add_right_comm, add_sub_cancel_right]
    rw [copyDown, hpred, hpred, ih, range_succ, reverse_append]
    rfl

theorem addr_ne (hd : dst.toNat + i < 2 ^ 32) (hs : src.toNat + j < 2 ^ 32)
    (h : dst.toNat + i ≠ src.toNat + j) : dst + .ofNat i ≠ src + .ofNat j := by
  have htoNat : ∀ {d : UInt32} {i : ℕ}, d.toNat + i < 2 ^ 32 → (d + .ofNat i).toNat = d.toNat + i := by
    intro d i hi
    rw [UInt32.toNat_add, UInt32.toNat_ofNat', Nat.add_mod_mod, Nat.mod_eq_of_lt hi]
  intro he
  have he := congrArg UInt32.toNat he
  rw [htoNat hd, htoNat hs] at he
  exact h he

theorem moved_copyUp (hd : dst.toNat + n ≤ 2 ^ 32) (hs : src.toNat + n ≤ 2 ^ 32)
    (h : dst ≤ src ∨ src.toNat + n ≤ dst.toNat) : Moved mem (copyUp n mem dst src) dst src n := by
  rw [UInt32.le_iff_toNat_le] at h
  rw [copyUp_eq]
  refine ⟨fun i hi => Copy.run_read (Copy.pairwise_range fun j k hjk hk => ?_) (mem_range.mpr hi),
    fun a ha => Copy.run_frame fun i hi => ha i (mem_range.mp hi)⟩
  exact ⟨addr_ne (by omega) (by omega) (by omega), addr_ne (by omega) (by omega) (by omega)⟩

theorem moved_copyDown (hd : dst.toNat + n ≤ 2 ^ 32) (h : src < dst) :
    Moved mem (copyDown n mem (dst + .ofNat n) (src + .ofNat n)) dst src n := by
  rw [UInt32.lt_iff_toNat_lt] at h
  rw [copyDown_eq]
  refine ⟨fun i hi => Copy.run_read (pairwise_reverse.mpr (Copy.pairwise_range fun j k hjk hk => ?_))
    (by simpa using hi), fun a ha => Copy.run_frame fun i hi => ha i (by simpa using hi)⟩
  exact ⟨addr_ne (by omega) (by omega) (by omega), addr_ne (by omega) (by omega) (by omega)⟩

/-- Where the destination is above the source, the loop upwards does not overwrite what it has
read. -/
theorem copyUp_same (hd : dst.toNat + n ≤ 2 ^ 32) (h : src < dst) (hi : i < n) :
    copyUp n mem dst src (dst + .ofNat i) = copyUp n mem dst src (src + .ofNat i) := by
  rw [UInt32.lt_iff_toNat_lt] at h
  rw [copyUp_eq]
  refine Copy.run_same (d := (dst + .ofNat ·)) (s := (src + .ofNat ·))
    (Copy.pairwise_range fun j k hjk hk => ?_) (fun k hk => ?_) (mem_range.mpr hi)
  · exact ⟨addr_ne (by omega) (by omega) (by omega), addr_ne (by omega) (by omega) (by omega)⟩
  · rw [mem_range] at hk
    exact addr_ne (by omega) (by omega) (by omega)

theorem add_ofNat_sub (h : src < dst) (k : ℕ) :
    src + .ofNat (k + (dst.toNat - src.toNat)) = dst + .ofNat k := by
  rw [UInt32.lt_iff_toNat_lt] at h
  have hdst : src + .ofNat (dst.toNat - src.toNat) = dst := by
    apply UInt32.toNat_inj.mp
    have := dst.toNat_lt
    rw [UInt32.toNat_add, UInt32.toNat_ofNat', Nat.add_mod_mod, Nat.add_sub_cancel' h.le,
      Nat.mod_eq_of_lt this]
  rw [UInt32.ofNat_add, add_left_comm, hdst, add_comm]

/-- Where the destination is above the source, the loop upwards moves bytes that repeat, and no
others. -/
theorem moved_copyUp_iff (hd : dst.toNat + n ≤ 2 ^ 32) (h : src < dst) :
    Moved mem (copyUp n mem dst src) dst src n ↔ Repeats mem dst src n := by
  have hlt := UInt32.lt_iff_toNat_lt.mp h
  have hframe : ∀ a, (∀ i < n, a ≠ dst + .ofNat i) → copyUp n mem dst src a = mem a := by
    intro a ha
    rw [copyUp_eq]
    exact Copy.run_frame fun i hi => ha i (mem_range.mp hi)
  refine ⟨fun hm i hi => ?_, fun hr => ⟨fun i => ?_, hframe⟩⟩
  · rw [← hm.bytes _ hi, copyUp_same hd h hi, add_ofNat_sub h, hm.bytes i (by omega)]
  · -- by induction along the source: a byte is below the destination, or has been stored
    induction i using Nat.strong_induction_on with
    | _ i ih =>
      intro hi
      rw [copyUp_same hd h hi]
      by_cases hlow : src.toNat + i < dst.toNat
      · exact hframe _ fun k hk => addr_ne (by omega) (by omega) (by omega)
      · obtain ⟨k, rfl⟩ : ∃ k, i = k + (dst.toNat - src.toNat) :=
          ⟨i - (dst.toNat - src.toNat), by omega⟩
        rw [hr k hi, add_ofNat_sub h]
        exact ih k (by omega) (by omega)

theorem Kern.moved (n : UInt32) (hd : dst.toNat + n.toNat ≤ 2 ^ 32)
    (hs : src.toNat + n.toNat ≤ 2 ^ 32) :
    Moved mem (Kern.memmove mem dst src n).1 dst src n.toNat := by
  rw [Kern.memmove]
  split_ifs with h
  · have hdown : Moved mem (copyDown n.toNat mem (dst + .ofNat n.toNat) (src + .ofNat n.toNat))
        dst src n.toNat := moved_copyDown hd h.1
    rwa [UInt32.ofNat_toNat] at hdown
  · refine moved_copyUp hd hs (or_iff_not_imp_left.mpr fun hle => ?_)
    rw [UInt32.not_le] at hle
    have hend : (src + n).toNat = src.toNat + n.toNat := by
      rw [UInt32.lt_iff_toNat_lt] at hle
      rw [UInt32.toNat_add, Nat.mod_eq_of_lt (by omega)]
    have hge : src + n ≤ dst := UInt32.not_lt.mp fun hgt => h ⟨hle, hgt⟩
    rwa [UInt32.le_iff_toNat_le, hend] at hge

theorem Kern.memmove_snd (mem : Mem) (dst src n : UInt32) : (Kern.memmove mem dst src n).2 = dst := by
  rw [Kern.memmove]
  split_ifs <;> rfl

/-- **The kernel's `memmove` moves the bytes in every case; that of the user library does, and
agrees with it, exactly if the destination does not begin inside the source or the bytes of the
source repeat.** -/
theorem memmove_moves_iff (mem : Mem) (dst src : UInt32) :
    (∀ n : UInt32, dst.toNat + n.toNat ≤ 2 ^ 32 → src.toNat + n.toNat ≤ 2 ^ 32 →
      Moved mem (Kern.memmove mem dst src n).1 dst src n.toNat) ∧
    ∀ n : Int32, 0 ≤ n → dst.toNat + n.toNatClampNeg ≤ 2 ^ 32 →
      src.toNat + n.toNatClampNeg ≤ 2 ^ 32 →
      ((Moved mem (Kern.memmove mem dst src n.toUInt32).1 dst src n.toNatClampNeg ∧
          Moved mem (Ulib.memmove mem dst src n).1 dst src n.toNatClampNeg ∧
          Ulib.memmove mem dst src n = Kern.memmove mem dst src n.toUInt32) ↔
        dst ≤ src ∨ src.toNat + n.toNatClampNeg ≤ dst.toNat ∨
          Repeats mem dst src n.toNatClampNeg) := by
  refine ⟨fun n hd hs => Kern.moved n hd hs, fun n hn hd hs => ?_⟩
  have htoNat := Int32.toNat_toUInt32_of_le hn
  have hkern : Moved mem (Kern.memmove mem dst src n.toUInt32).1 dst src n.toNatClampNeg := by
    rw [← htoNat] at hd hs ⊢
    exact Kern.moved _ hd hs
  have hulib : Moved mem (Ulib.memmove mem dst src n).1 dst src n.toNatClampNeg ↔
      dst ≤ src ∨ src.toNat + n.toNatClampNeg ≤ dst.toNat ∨ Repeats mem dst src n.toNatClampNeg := by
    by_cases hle : dst ≤ src
    · exact iff_of_true (moved_copyUp hd hs (.inl hle)) (.inl hle)
    by_cases hend : src.toNat + n.toNatClampNeg ≤ dst.toNat
    · exact iff_of_true (moved_copyUp hd hs (.inr hend)) (.inr (.inl hend))
    · rw [or_iff_right hle, or_iff_right hend]
      exact moved_copyUp_iff hd (UInt32.not_le.mp hle)
  rw [← hulib]
  exact ⟨fun h => h.2.1, fun h =>
    ⟨hkern, h, Prod.ext (h.unique hkern) (Kern.memmove_snd mem dst src _).symm⟩⟩

/-- Every byte is the end of its address. -/
def ramp : Mem := fun a => a.toUInt8

/-- Two bytes up by one in the kernel, and down by one in the user library. -/
theorem memmove_moves_iff_by_one :
    Moved ramp (Kern.memmove ramp 1 0 2).1 1 0 2 ∧
      Moved ramp (Ulib.memmove ramp 0 1 2).1 0 1 2 ∧
      Ulib.memmove ramp 0 1 2 = Kern.memmove ramp 0 1 2 :=
  ⟨(memmove_moves_iff ramp 1 0).1 2 (by decide) (by decide),
    (((memmove_moves_iff ramp 0 1).2 2 (by decide) (by decide) (by decide)).mpr (.inl (by decide))).2⟩

/-- **Two bytes up by one in the user library**: the second is gone, which the kernel keeps. -/
theorem ulib_memmove_up_by_one :
    ¬Moved ramp (Ulib.memmove ramp 1 0 2).1 1 0 2 ∧
      Ulib.memmove ramp 1 0 2 ≠ Kern.memmove ramp 1 0 2 := by
  constructor
  · intro h
    have := h.bytes 1 (by decide)
    revert this
    decide
  · intro h
    have := congrFun (congrArg Prod.fst h) 2
    revert this
    decide

end Xv6.Memmove
