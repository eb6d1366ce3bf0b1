import Xv6.User.Alone

/-!
# User pointers

A system call gets addresses from the process and looks at what is there.  The checks of
`syscall.c` are to keep it within `[0, proc->sz)`.  They do, except for one: `argptr`
adds the length to the address modulo `2^32`, so a negative length is accepted if the
address is at least its absolute value; and while every loop below that runs over an `int`
then does nothing, `readi` takes the length as a `uint`, finds it larger than the file and
reads the rest of the file instead.

`kthread_create` hands its pointers to the new thread and does not follow them; where it
puts the new thread's frame is the subject of `Proc.KernelStack`.
-/

namespace Xv6.User

open Handler

section

variable {W : World} {sz : UInt32} {m : Mem}

/-! ## The calls -/

variable {esp : UInt32}

theorem along_onInts (hsz : sz.toNat < kernbase) :
    ∀ (k n : ℕ), (handler W sz).Along (Inside sz) (fun _ _ => True) (onInts esp k n) m
  | 0, _ => along_ask.mpr trivial
  | k + 1, n => by
    rw [onInts, along_bind, along_argint hsz]
    cases arg sz m esp n with
    | none => trivial
    | some _ => exact along_onInts hsz k (n + 1)

theorem along_walk {path : UInt32} (h : Ended sz m path) {k : ℕ} {parent : Bool} :
    (handler W sz).Along (Inside sz) (fun _ _ => True)
      (do if ← namex k path parent then ask .rest else pure (-1)) m := by
  rw [along_bind]
  refine along_namex h fun b => ?_
  split
  · exact along_ask.mpr trivial
  · trivial

section

variable (hsz : sz.toNat < kernbase)
include hsz

theorem along_sysSbrk : (handler W sz).Along (Inside sz) (fun _ _ => True) (sysSbrk esp) m := by
  unfold sysSbrk
  rw [along_bind, along_argint hsz]
  cases arg sz m esp 0 with
  | none => trivial
  | some n =>
    dsimp only
    rw [along_bind, along_size, along_bind, along_ask]
    split <;> trivial

theorem along_onFd : (handler W sz).Along (Inside sz) (fun _ _ => True) (onFd esp) m := by
  unfold onFd
  rw [along_bind, along_argfd hsz]
  cases fileArg W sz m esp 0 with
  | none => trivial
  | some _ => exact along_ask.mpr trivial

theorem along_onPath {parent : Bool} :
    (handler W sz).Along (Inside sz) (fun _ _ => True)
      (onPath esp fun path => namex 0 path parent) m := by
  unfold onPath
  rw [along_bind]
  refine along_argstr hsz fun r hr => ?_
  cases r with
  | none => trivial
  | some path => exact along_walk (hr path rfl)

theorem along_sysWrite : (handler W sz).Along (Inside sz) (fun _ _ => True) (sysWrite esp) m := by
  unfold sysWrite
  rw [along_bind, along_argfd hsz]
  cases fileArg W sz m esp 0 with
  | none => trivial
  | some f =>
    dsimp only
    rw [along_bind, along_argint hsz]
    cases arg sz m esp 2 with
    | none => trivial
    | some n =>
      dsimp only
      rw [along_bind, along_argptr hsz]
      cases hp : ptrArg sz m esp 1 n with
      | none => trivial
      | some p =>
        obtain ⟨hlt, hle⟩ := accepted_of_ptrArg hp
        exact along_filewrite (inside_of_accepted hsz hlt hle)

theorem along_sysFstat : (handler W sz).Along (Inside sz) (fun _ _ => True) (sysFstat esp) m := by
  unfold sysFstat
  rw [along_bind, along_argfd hsz]
  cases fileArg W sz m esp 0 with
  | none => trivial
  | some f =>
    dsimp only
    rw [along_bind, along_argptr hsz]
    cases hp : ptrArg sz m esp 1 statSize with
    | none => trivial
    | some st =>
      obtain ⟨hlt, hle⟩ := accepted_of_ptrArg hp
      exact along_filestat (inside_of_accepted hsz hlt hle)

theorem along_sysPipe : (handler W sz).Along (Inside sz) (fun _ _ => True) (sysPipe esp) m := by
  unfold sysPipe
  rw [along_bind, along_argptr hsz]
  cases hp : ptrArg sz m esp 0 8 with
  | none => trivial
  | some fd =>
    obtain ⟨hlt, hle⟩ := accepted_of_ptrArg hp
    have hin : fd.toNat + 8 ≤ sz.toNat := inside_of_accepted hsz hlt hle
    dsimp only
    rw [along_bind, along_ask]
    cases W .pipealloc with
    | none => trivial
    | some fds =>
      dsimp only
      rw [along_bind, ← UInt32.add_zero fd]
      refine along_store_field 0 hin (by simp [bytesOf]) fun _ => ?_
      rw [along_bind, UInt32.add_zero]
      exact along_store_field 4 hin (by simp [bytesOf]) fun _ => trivial

theorem along_sysLink : (handler W sz).Along (Inside sz) (fun _ _ => True) (sysLink esp) m := by
  unfold sysLink
  rw [along_bind]
  refine along_argstr hsz fun r hr => ?_
  cases r with
  | none => trivial
  | some old =>
    dsimp only
    rw [along_bind]
    refine along_argstr hsz fun r' hr' => ?_
    cases r' with
    | none => trivial
    | some new =>
      dsimp only
      rw [along_bind]
      refine along_namex (hr old rfl) fun b => ?_
      split
      · rw [along_bind, along_ask]
        split
        · exact along_walk (hr' new rfl)
        · trivial
      · trivial

theorem along_sysOpen : (handler W sz).Along (Inside sz) (fun _ _ => True) (sysOpen esp) m := by
  unfold sysOpen
  rw [along_bind]
  refine along_argstr hsz fun r hr => ?_
  cases r with
  | none => trivial
  | some path =>
    dsimp only
    rw [along_bind, along_argint hsz]
    cases arg sz m esp 1 with
    | none => trivial
    | some omode =>
      dsimp only
      split
      · exact along_walk (hr path rfl)
      · exact along_walk (hr path rfl)

theorem along_sysMknod : (handler W sz).Along (Inside sz) (fun _ _ => True) (sysMknod esp) m := by
  unfold sysMknod
  rw [along_bind]
  refine along_argstr hsz fun r hr => ?_
  cases r with
  | none => trivial
  | some path =>
    dsimp only
    rw [along_bind, along_argint hsz]
    cases arg sz m esp 1 with
    | none => trivial
    | some _ =>
      dsimp only
      rw [along_bind, along_argint hsz]
      cases arg sz m esp 2 with
      | none => trivial
      | some _ => exact along_walk (hr path rfl)

theorem along_sysExec : (handler W sz).Along (Inside sz) (fun _ _ => True) (sysExec esp) m := by
  unfold sysExec
  rw [along_bind]
  refine along_argstr hsz fun r hr => ?_
  cases r with
  | none => trivial
  | some path =>
    dsimp only
    rw [along_bind, along_argint hsz]
    cases arg sz m esp 1 with
    | none => trivial
    | some uargv =>
      dsimp only
      rw [along_bind]
      refine along_fetchArgv hsz _ _ fun r' hr' => ?_
      cases r' with
      | none => trivial
      | some argv => exact along_exec (hr path rfl) (hr' argv rfl)

end

/-! ## `sys_read` -/

/-- A `read` with stack pointer `esp` that leaves the memory of the process: from an open
inode that is no device, with a length `-k` and a buffer that is at least `k` above `0`, at
an offset below `k`, so that `readi` reads the rest of the file, which does not fit. -/
def Overreads (W : World) (sz : UInt32) (m : Mem) (esp : UInt32) : Prop :=
  ∃ f p n, fileArg W sz m esp 0 = some f ∧ arg sz m esp 1 = some p ∧ arg sz m esp 2 = some n ∧
    f.readable = true ∧ f.type = .inode ∧ (W (.inode 0)).type ≠ .dev ∧
    asInt n < 0 ∧ -asInt n ≤ p.toNat ∧ p < sz ∧
    (W (.inode 0)).off ≤ (W (.inode 0)).size ∧ (W (.inode 0)).off.toNat < -asInt n ∧
    sz.toNat < p.toNat +
      min n.toNat ((W (.inode 0)).size.toNat - (W (.inode 0)).off.toNat)

theorem along_fileread {f : OpenFile} {addr n : UInt32} (haddr : addr < sz)
    (h : addr.toNat + (asInt n).toNat ≤ sz.toNat) :
    (handler W sz).Along (Inside sz) (fun _ _ => True) (fileread f addr n) m ↔
      (f.readable = true → f.type = .inode → (W (.inode 0)).type ≠ .dev →
        addr.toNat + readLength (W (.inode 0)) n ≤ sz.toNat) := by
  unfold fileread
  split
  · rename_i hr
    refine iff_of_true trivial fun hr' => ?_
    rw [hr] at hr'
    cases hr'
  · rename_i hr
    rw [imp_iff_right (by simpa using hr)]
    cases f.type with
    | none => exact iff_of_true trivial fun ht => by cases ht
    | pipe => exact iff_of_true (along_piperead h) fun ht => by cases ht
    | inode => exact (along_readi haddr h).trans (imp_iff_right rfl).symm

section

variable (hsz : sz.toNat < kernbase)
include hsz

theorem readLength_fits_iff {ip : Inode} {p n : UInt32} (hp : p < sz) (hn : p + n ≤ sz) :
    p.toNat + readLength ip n ≤ sz.toNat ↔
      ¬ (asInt n < 0 ∧ ip.off ≤ ip.size ∧ (ip.off.toNat : ℤ) < -asInt n ∧
        sz.toNat < p.toNat + min n.toNat (ip.size.toNat - ip.off.toNat)) := by
  have hn32 := n.toNat_lt
  have hs32 := ip.size.toNat_lt
  have ho32 := ip.off.toNat_lt
  unfold readLength clip asInt
  simp only [gt_iff_lt, UInt32.lt_iff_toNat_lt, UInt32.le_iff_toNat_le, UInt32.toNat_add] at *
  unfold kernbase at hsz
  by_cases hneg : n.toNat < 2 ^ 31
  · rw [if_pos hneg]
    refine iff_of_true ?_ (by omega)
    split
    · omega
    · split
      · rw [UInt32.toNat_sub]
        omega
      · omega
  · rw [if_neg hneg]
    split
    · omega
    · split
      · rw [UInt32.toNat_sub]
        omega
      · omega

/-- A negative length is accepted if the address is large enough. -/
theorem accepted_neg_iff {p n : UInt32} (hp : p < sz) (hneg : asInt n < 0) :
    p + n ≤ sz ↔ -asInt n ≤ p.toNat := by
  have hn32 := n.toNat_lt
  unfold asInt at *
  rw [UInt32.lt_iff_toNat_lt] at hp
  rw [UInt32.le_iff_toNat_le, UInt32.toNat_add]
  unfold kernbase at hsz
  split at hneg <;> omega

theorem along_sysRead :
    (handler W sz).Along (Inside sz) (fun _ _ => True) (sysRead esp) m ↔
      ¬ Overreads W sz m esp := by
  unfold sysRead Overreads
  rw [along_bind, along_argfd hsz]
  cases fileArg W sz m esp 0 with
  | none => exact iff_of_true trivial (by rintro ⟨f, p, n, hf, -⟩; cases hf)
  | some f =>
    dsimp only
    rw [along_bind, along_argint hsz]
    cases arg sz m esp 2 with
    | none => exact iff_of_true trivial (by rintro ⟨f, p, n, -, -, hn, -⟩; cases hn)
    | some n =>
      dsimp only
      rw [along_bind, along_argptr hsz, ptrArg]
      cases arg sz m esp 1 with
      | none => exact iff_of_true trivial (by rintro ⟨f, p, n, -, hp, -⟩; cases hp)
      | some p =>
        dsimp only
        by_cases hacc : p < sz ∧ p + n ≤ sz
        · rw [if_pos hacc]
          obtain ⟨hp, hn⟩ := hacc
          dsimp only
          rw [along_fileread hp (inside_of_accepted hsz hp hn)]
          constructor
          · rintro h ⟨_, _, _, ⟨⟩, ⟨⟩, ⟨⟩, hr, ht, hd, hneg, hk, -, hoff, hlt, hout⟩
            exact (readLength_fits_iff hsz hp hn).mp (h hr ht hd) ⟨hneg, hoff, hlt, hout⟩
          · intro h hr ht hd
            refine (readLength_fits_iff hsz hp hn).mpr ?_
            rintro ⟨hneg, hoff, hlt, hout⟩
            exact h ⟨f, p, n, rfl, rfl, rfl, hr, ht, hd, hneg,
              (accepted_neg_iff hsz hp hneg).mp hn, hp, hoff, hlt, hout⟩
        · rw [if_neg hacc]
          refine iff_of_true trivial ?_
          rintro ⟨_, _, _, ⟨⟩, ⟨⟩, ⟨⟩, -, -, -, hneg, hk, hp, -⟩
          exact hacc ⟨hp, (accepted_neg_iff hsz hp hneg).mpr hk⟩

theorem along_of_ne_read {c : Syscall} (hc : c ≠ .read) (esp : UInt32) :
    (handler W sz).Along (Inside sz) (fun _ _ => True) (c.code esp) m := by
  cases c with
  | read => exact absurd rfl hc
  | dup | close => exact along_onFd hsz
  | write => exact along_sysWrite hsz
  | fstat => exact along_sysFstat hsz
  | pipe => exact along_sysPipe hsz
  | link => exact along_sysLink hsz
  | unlink | mkdir | chdir => exact along_onPath hsz
  | «open» => exact along_sysOpen hsz
  | mknod => exact along_sysMknod hsz
  | exec => exact along_sysExec hsz
  | kill | sleep | kthreadJoin => exact along_onInts hsz 1 0
  | sbrk => exact along_sysSbrk hsz
  | kthreadCreate => exact along_onInts hsz 3 0

end

end

/-- The memory of a process.  `allocuvm` does not let it grow to `KERNBASE`. -/
structure Process where
  sz : UInt32
  mem : Mem
  sz_lt : sz.toNat < kernbase

/-- **Which calls leave the memory of their process.**  Whatever the arguments are, the
stack pointer, the memory and what the rest of the kernel answers: every address that the
kernel looks at or changes for the call is in `[0, proc->sz)`, exactly when the call is not
a `read` that overreads. -/
theorem confined_iff (P : Process) (W : World) (c : Syscall) (esp : UInt32) :
    (∀ a ∈ touched W P.sz P.mem c esp, a < P.sz) ↔
      ¬ (c = .read ∧ Overreads W P.sz P.mem esp) := by
  rw [touched_iff_along]
  by_cases hc : c = .read
  · rw [hc]
    exact (along_sysRead P.sz_lt).trans (not_congr (and_iff_right rfl).symm)
  · exact iff_of_true (along_of_ne_read P.sz_lt hc esp) fun h => hc h.1

/-- One page, with the arguments of `read(0, 4095, -1)` at the bottom of it. -/
def negativeRead : Process where
  sz := 4096
  mem := fun a =>
    if a = 8 then 0xff else if a = 9 then 0x0f
    else if 12 ≤ a ∧ a < 16 then 0xff else 0
  sz_lt := by decide

/-- Descriptor `0` is a file of two bytes, read from its beginning. -/
def twoByteFile : World := fun q =>
  match q with
  | .ofile _ => some ⟨.inode, true, false⟩
  | .inode _ => ⟨.file, 0, 2, 0⟩
  | q => silent q

/-- **`read(0, 4095, -1)` writes beyond the memory of its process**, if the file has two
bytes. -/
theorem negative_read_leaves :
    ∃ a ∈ touched twoByteFile negativeRead.sz negativeRead.mem .read 0, ¬ a < negativeRead.sz :=
  ⟨4096, by decide +kernel, by decide⟩

end Xv6.User
