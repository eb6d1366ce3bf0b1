import Xv6.Lib.Fallible
import Xv6.Vm.Copy
import Xv6.Vm.Outcome

/-!
# No process reaches the memory of another

Any number of processes fork, call `sbrk` and `exec`, store to their pages and are reaped, in any
order, and the kernel takes pages for stacks and pipes; each call is one step.  Pages are lost on
the way when there are too few of them; but no page is ever in two places.  All that is needed of
a call is that it only trades pages between the free list and the directory that it works on
(`Trades`), and that is so however the call ends.  Only `exec` has to be kept from storing where
its program headers say (`ExecFits`).
-/

namespace Xv6.Vm.Mem

open Fallible
open Multiset (mem_add mem_of_le nodup_of_le)

variable {L : Layout} {M M' M'' : Mem} {P Q : Image} {d f g v n r sz oldsz newsz : ℕ}

/-! ## Calls -/

/-- All that is free or held by `d` was so before, and no other page has been written. -/
structure Trades (d : ℕ) (M M' : Mem) : Prop where
  le : (M'.free : Multiset ℕ) + M'.held d ≤ M.free + M.held d
  page : ∀ g ∉ (M.free : Multiset ℕ) + M.held d, M'.page g = M.page g

theorem Trades.refl (M : Mem) : Trades d M M := ⟨le_rfl, fun _ _ => rfl⟩

theorem Trades.trans (h : Trades d M M') (h' : Trades d M' M'') : Trades d M M'' :=
  ⟨h'.le.trans h.le, fun g hg => (h'.page g fun hm => hg (mem_of_le h.le hm)).trans (h.page g hg)⟩

theorem Trades.sound (h : Trades d M M') (hs : Sound L M d) : Sound L M' d :=
  ⟨nodup_of_le h.le hs.nodup, fun f hf => hs.takes f (mem_of_le h.le hf)⟩

theorem mem_held_of_present (hv : v < userPages) (hp : present (M.pte d v) = true) :
    pageOf (M.pte d v) ∈ M.held d :=
  mem_add.mpr (.inr (mem_pages.mpr ⟨v, hv, hp, rfl⟩))

theorem trades_mappages {perm : ℕ} {fs : List ℕ} {b : Bytes pgsize} {done : Bool} (hs : Sound L M d)
    (hv : v < userPages) (hp : perm < pgsize) (h : M.free = f :: fs)
    (hrun : (M.taken f fs b).mappages d (v * pgsize) pgsize (f * pgsize) perm = .ok (done, M')) :
    Trades d M M' := by
  cases hpres : present (M.pte d v) with
  | true =>
    -- the panic `remap`, so that nothing is returned
    obtain ⟨t, ht⟩ := exists_table hpres
    have hv' := userPages_lt hv
    have ht' := (table_taken (b := b) hs h _).trans ht
    rw [mappages_one hv', mapPage, walkAlloc_some hv' ht'] at hrun
    dsimp only at hrun
    rw [← pte_of_table ht', pte_taken hs h hv', if_pos hpres] at hrun
    cases hrun
  | false =>
    obtain ⟨-, rfl, hmap⟩ | ⟨M₁, hmap, hfill, -⟩ := addPage_spec hs hv hpres hp h b
    · cases hmap.symm.trans hrun
      refine ⟨?_, fun g hg => page_setPage_of_ne ?_⟩
      · rw [held_taken hs h]
        exact add_le_add_left (Multiset.zero_le _) _
      · rintro rfl
        exact hg (mem_add.mpr (.inl (Multiset.mem_coe.mpr (mem_free h))))
    · cases hmap.symm.trans hrun
      exact ⟨hfill.total.le, fun g hg => hfill.page g (fun hf => hg (mem_add.mpr (.inl hf)))
        fun hn => hg (mem_add.mpr (.inr (mem_add.mpr (.inl hn))))⟩

theorem trades_deallocuvm (hs : Sound L M d) (hold : oldsz ≤ kernbase)
    (hrun : deallocuvm L M d oldsz newsz = .ok (r, M')) : Trades d M M' ∧ r ≤ oldsz := by
  rcases Nat.lt_or_ge newsz oldsz with hnew | hge
  · have hbound : ∀ u ∈ M.deallocPath d oldsz newsz, u < userPages := fun u hu =>
      (bounds_of_mem_path hu).2.trans_le (pagesBetween_le hold)
    obtain ⟨M₁, hrun₁, h⟩ := deallocuvm_path hnew hold hs.held_nodup fun u hu hp =>
      hs.takes_held (mem_held_of_present (hbound u hu) hp)
    cases hrun₁.symm.trans hrun
    refine ⟨⟨?_, fun g hg => h.page g (fun hn => hg ?_) fun u hu hgu => hg ?_⟩, hnew.le⟩
    · rw [h.free, h.held, add_right_comm, add_comm]
    · exact mem_add.mpr (.inr (mem_add.mpr (.inl hn)))
    · obtain ⟨hp, rfl⟩ := Radix.Format.mem_named.mp hgu
      exact mem_add.mpr (.inr (mem_held_of_present (hbound u hu) hp))
  · rw [deallocuvm, if_pos hge] at hrun
    cases hrun
    exact ⟨.refl M, le_rfl⟩

theorem trades_allocFrom (hs : Sound L M d) (hnew : newsz ≤ kernbase) (hn : v + n ≤ userPages)
    (hrun : allocFrom L d oldsz newsz n (v * pgsize) M = .ok (r, M')) :
    Trades d M M' ∧ r ≤ newsz := by
  induction n generalizing v M with
  | zero =>
    cases hrun
    exact ⟨.refl _, le_rfl⟩
  | succ n ih =>
    rw [allocFrom] at hrun
    cases hfree : M.free with
    | nil =>
      rw [kalloc_nil hfree] at hrun
      obtain ⟨x, hx, hrun⟩ := bind_eq_ok.mp hrun
      cases hrun
      exact ⟨(trades_deallocuvm hs hnew hx).1, Nat.zero_le _⟩
    | cons f fs =>
      rw [kalloc_cons hfree] at hrun
      obtain ⟨x, hx, hrun⟩ := bind_eq_ok.mp hrun
      have h := trades_mappages hs (by omega) (by decide) hfree hx
      rw [← Nat.add_one_mul] at hrun
      obtain ⟨h', hr⟩ := ih (h.sound hs) (by omega) hrun
      exact ⟨h.trans h', hr⟩

theorem trades_growproc {k ret : ℤ} (hs : Sound L M d) (hsz : sz ≤ kernbase)
    (hrun : growproc L M d sz k = .ok (ret, r, M')) : Trades d M M' ∧ r ≤ kernbase := by
  rw [growproc] at hrun
  split_ifs at hrun with hpos hneg
  · obtain ⟨x, hx, hrun⟩ := bind_eq_ok.mp hrun
    have h : Trades d M x.2 ∧ x.1 ≤ kernbase := by
      rw [allocuvm] at hx
      split_ifs at hx with hlarge hsmall
      · cases hx
        exact ⟨.refl M, Nat.zero_le _⟩
      · cases hx
        exact ⟨.refl M, hsz⟩
      · have hnew := (not_le.mp hlarge).le
        rw [pagesBetween_pgroundup (not_lt.mp hsmall) hnew, pgroundup_eq hsz] at hx
        have hmono := pagesBetween_mono (not_lt.mp hsmall)
        have hle := pagesBetween_le hnew
        obtain ⟨h, hr⟩ := trades_allocFrom hs hnew (by omega) hx
        exact ⟨h, hr.trans hnew⟩
    dsimp only at hrun
    split_ifs at hrun with h0
    · cases hrun
      exact ⟨h.1, hsz⟩
    · cases hrun
      exact h
  · obtain ⟨x, hx, hrun⟩ := bind_eq_ok.mp hrun
    obtain ⟨h, hr⟩ := trades_deallocuvm hs hsz hx
    dsimp only at hrun
    split_ifs at hrun with h0
    · cases hrun
      exact ⟨h, hsz⟩
    · cases hrun
      exact ⟨h, hr.trans hsz⟩
  · cases hrun
    exact ⟨.refl M, hsz⟩

theorem trades_copyFrom {pgdir : ℕ} {done : Bool} (hs : Sound L M d) (hn : v + n ≤ userPages)
    (hrun : copyFrom pgdir d n (v * pgsize) M = .ok (done, M')) : Trades d M M' := by
  induction n generalizing v M with
  | zero =>
    cases hrun
    exact .refl _
  | succ n ih =>
    rw [copyFrom] at hrun
    split at hrun
    · cases hrun
    dsimp only at hrun
    split_ifs at hrun with hp
    cases hfree : M.free with
    | nil =>
      rw [kalloc_nil hfree] at hrun
      cases hrun
      exact .refl _
    | cons f fs =>
      rw [kalloc_cons hfree] at hrun
      obtain ⟨x, hx, hrun⟩ := bind_eq_ok.mp hrun
      have h := trades_mappages hs (by omega) (Nat.mod_lt _ (by decide)) hfree hx
      rw [← Nat.add_one_mul] at hrun
      split_ifs at hrun with hdone
      · exact h.trans (ih (h.sound hs) (by omega) hrun)
      · cases hrun
        exact h

theorem copyuvm_trades {pgdir : ℕ} {o : Option ℕ} (hn : M.free.Nodup)
    (hal : ∀ f ∈ M.free, L.Allocatable f) (hsz : sz ≤ kernbase)
    (hrun : copyuvm L M pgdir sz = .ok (o, M')) :
    (M'.free : Multiset ℕ) + o.elim 0 M'.held ≤ M.free ∧ ∀ g ∉ M.free, M'.page g = M.page g := by
  rw [copyuvm] at hrun
  rcases Nat.lt_or_ge M.free.length 65 with hlt | hge
  · obtain ⟨M₁, hset, hnil, hpage⟩ := setupkvm_fails hn hal hlt
    rw [hset] at hrun
    cases hrun
    rw [hnil]
    exact ⟨Multiset.zero_le _, hpage⟩
  obtain ⟨d, M₁, hset, hdir, -⟩ := setupkvm_ok hn hal hge
  have htotal : (M₁.free : Multiset ℕ) + M₁.held d = M.free := by
    rw [held, hdir.pages, add_zero, hdir.total]
  rw [hset, ok_bind] at hrun
  obtain ⟨x, hx, hrun⟩ := bind_eq_ok.mp hrun
  have hs₁ := hdir.sound hn hal
  have h := trades_copyFrom (v := 0) hs₁ (by simpa using pagesBetween_le hsz)
    (by rw [zero_mul]; exact hx)
  have hpage : ∀ g ∉ M.free, x.2.page g = M.page g := fun g hg =>
    (h.page g (by rwa [htotal])).trans (hdir.page g hg)
  have hle := h.le.trans htotal.le
  dsimp only at hrun
  split_ifs at hrun with hdone
  · cases hrun
    exact ⟨hle, hpage⟩
  · have hs₂ := h.sound hs₁
    obtain ⟨M₂, hfreevm, hfree, hpage₂⟩ := freevm_ok hs₂.held_nodup fun f hf => hs₂.takes_held hf
    rw [hfreevm] at hrun
    cases hrun
    refine ⟨by rwa [Option.elim_none, add_zero, hfree, add_comm], fun g hg => ?_⟩
    rw [hpage₂ g fun hm => hg (mem_of_le hle (mem_add.mpr (.inr hm))), hpage g hg]

theorem held_congr (h : ∀ g ∈ M.nodes d, M'.page g = M.page g) : M'.held d = M.held d := by
  rw [held, held, nodes_congr fun j _ => table_congr (h d root_mem) j,
    pages_congr fun v hv => pte_congr h (userPages_lt hv)]

/-! ## Processes -/

/-- Who has pages: a process, or the kernel, for a stack or a pipe. -/
inductive Holder where
  | proc (P : Image)
  | kernel (f : ℕ)

def heldOf (M : Mem) : Holder → Multiset ℕ
  | .proc P => M.held P.pgdir
  | .kernel f => {f}

def heldBy (M : Mem) (xs : Multiset Holder) : Multiset ℕ := xs.bind M.heldOf

/-- One of the holders does something, and then there are the holders `now` in its place. -/
inductive Acts (L : Layout) (M : Mem) : Holder → Multiset Holder → Mem → Prop where
  | forks {P : Image} {d : ℕ} {M' : Mem} (h : copyuvm L M P.pgdir P.sz = .ok (some d, M')) :
      Acts L M (.proc P) {.proc P, .proc { P with pgdir := d }} M'
  | forkFails {P : Image} {M' : Mem} (h : copyuvm L M P.pgdir P.sz = .ok (none, M')) :
      Acts L M (.proc P) {.proc P} M'
  | grows {P : Image} {n r : ℤ} {sz : ℕ} {M' : Mem}
      (h : M.growproc L P.pgdir P.sz n = .ok (r, sz, M')) :
      Acts L M (.proc P) {.proc { P with sz := sz }} M'
  | execs {P : Image} {ip elf₀ path argv out} (h : exec L ip elf₀ path argv P M = .ok out)
      (hlen : ∀ arg ∈ argv, arg.length < 2 ^ 31)
      (hfit : ∀ rd, ip = some rd → HeaderTaken rd elf₀ → 65 ≤ M.free.length →
        ExecFits rd (headerOf rd elf₀) argv M.free.length) :
      Acts L M (.proc P) {.proc out.image} out.mem
  | stores {P : Image} {v : ℕ} (b : Bytes pgsize) (hv : v < userPages)
      (hp : present (M.pte P.pgdir v) = true) :
      Acts L M (.proc P) {.proc P} (M.setPage (pageOf (M.pte P.pgdir v)) b)
  | reaped {P : Image} {M' : Mem} (h : M.freevm L (some P.pgdir) = .ok M') :
      Acts L M (.proc P) 0 M'
  | kallocs {P : Image} {f : ℕ} {M' : Mem} (h : M.kalloc = (some f, M')) :
      Acts L M (.proc P) {.proc P, .kernel f} M'
  | kernelStores {f : ℕ} (b : Bytes pgsize) : Acts L M (.kernel f) {.kernel f} (M.setPage f b)
  | kfrees {f : ℕ} {M' : Mem} (h : M.kfree L f = .ok M') : Acts L M (.kernel f) 0 M'

/-- No page is in two places. -/
structure Separate (L : Layout) (M : Mem) (xs : Multiset Holder) : Prop where
  nodup : ((M.free : Multiset ℕ) + M.heldBy xs).Nodup
  takes : ∀ f ∈ (M.free : Multiset ℕ) + M.heldBy xs, L.Allocatable f
  sz : ∀ P, .proc P ∈ xs → P.sz ≤ kernbase

/-- `Trades`, for a holder in whose place there are `now`. -/
structure Becomes (x : Holder) (now : Multiset Holder) (M M' : Mem) : Prop where
  le : (M'.free : Multiset ℕ) + M'.heldBy now ≤ M.free + M.heldOf x
  page : ∀ g ∉ (M.free : Multiset ℕ) + M.heldOf x, M'.page g = M.page g
  sz : ∀ P, .proc P ∈ now → P.sz ≤ kernbase

variable {x y : Holder} {xs now : Multiset Holder}

theorem heldBy_cons : M.heldBy (x ::ₘ xs) = M.heldOf x + M.heldBy xs := Multiset.cons_bind _ _ _

theorem heldBy_singleton : M.heldBy {x} = M.heldOf x := Multiset.singleton_bind _ _

theorem Trades.becomes (h : Trades P.pgdir M M') (hdir : Q.pgdir = P.pgdir)
    (hsz : Q.sz ≤ kernbase) : Becomes (.proc P) {.proc Q} M M' where
  le := by
    rw [heldBy_singleton, heldOf, hdir]
    exact h.le
  page := h.page
  sz P hP := by
    cases Multiset.mem_singleton.mp hP
    exact hsz

/-- A call that has changed free pages only. -/
theorem becomes_self (hs : Sound L M P.pgdir) (hsz : P.sz ≤ kernbase)
    (hle : (M'.free : Multiset ℕ) ≤ M.free) (hpage : ∀ g ∉ M.free, M'.page g = M.page g) :
    Becomes (.proc P) {.proc P} M M' := by
  refine Trades.becomes ⟨?_, fun g hg => hpage g fun hf => hg (mem_add.mpr (.inl hf))⟩ rfl hsz
  rw [held_congr fun g hg => hpage g fun hf => hs.notMem_nodes hf hg]
  exact add_le_add_left hle _

theorem Separate.sound (h : Separate L M (.proc P ::ₘ xs)) :
    Sound L M P.pgdir ∧ P.sz ≤ kernbase := by
  have hle : (M.free : Multiset ℕ) + M.held P.pgdir ≤ M.free + M.heldBy (.proc P ::ₘ xs) := by
    rw [heldBy_cons, ← add_assoc]
    exact Multiset.le_add_right _ _
  exact ⟨⟨nodup_of_le hle h.nodup, fun f hf => h.takes f (mem_of_le hle hf)⟩,
    h.sz P (Multiset.mem_cons_self _ _)⟩

theorem Separate.becomes (hsep : Separate L M (x ::ₘ xs)) (h : Acts L M x now M') :
    Becomes x now M M' := by
  cases h with
  | forks h =>
    obtain ⟨hs, hsz⟩ := hsep.sound
    obtain ⟨hle, hpage⟩ := copyuvm_trades hs.free_nodup (fun _ => hs.takes_free) hsz h
    refine ⟨?_, fun g hg => hpage g fun hf => hg (mem_add.mpr (.inl hf)), by simpa using hsz⟩
    rw [Multiset.insert_eq_cons, heldBy_cons, heldBy_singleton, add_comm (M'.heldOf _), ← add_assoc,
      heldOf, heldOf, heldOf, held_congr fun g hg => hpage g fun hf => hs.notMem_nodes hf hg]
    rw [Option.elim_some] at hle
    exact add_le_add_left hle _
  | forkFails h =>
    obtain ⟨hs, hsz⟩ := hsep.sound
    obtain ⟨hle, hpage⟩ := copyuvm_trades hs.free_nodup (fun _ => hs.takes_free) hsz h
    exact becomes_self hs hsz ((Multiset.le_add_right _ _).trans hle) hpage
  | grows h =>
    obtain ⟨hs, hsz⟩ := hsep.sound
    obtain ⟨h, hr⟩ := trades_growproc hs hsz h
    exact h.becomes rfl hr
  | execs h hlen hfit =>
    obtain ⟨hs, hsz⟩ := hsep.sound
    obtain ⟨out, lost, hrun, -, -, hout, -⟩ := exec_ok _ _ hs hlen hfit
    cases hrun.symm.trans h
    obtain hout | ⟨rd, s, s', -, -, -, -, -, hout⟩ := hout
    · rw [hout.image]
      exact becomes_self hs hsz (hout.free ▸ Multiset.le_add_right _ _) hout.page
    · refine ⟨?_, fun g hg => ?_, ?_⟩
      · rw [heldBy_singleton, heldOf, heldOf, ← hout.total]
        exact Multiset.le_add_right _ _
      · exact hout.page g (fun hf => hg (mem_add.mpr (.inl hf))) fun hf => hg (mem_add.mpr (.inr hf))
      · have hle := hout.spread.le
        simp only [Multiset.mem_singleton, Holder.proc.injEq, forall_eq, hout.sz]
        simp only [Room.pages, pagesBetween, userPages, kernbase, pgsize] at hle ⊢
        omega
  | stores b hv hp =>
    obtain ⟨hs, hsz⟩ := hsep.sound
    refine Trades.becomes ⟨le_of_eq ?_, fun g hg => page_setPage_of_ne ?_⟩ rfl hsz
    · refine congrArg (_ + ·) (held_congr fun g hg => page_setPage_of_ne ?_)
      rintro rfl
      exact notMem_nodes_of_mem_pages hs.held_nodup (mem_pages.mpr ⟨_, hv, hp, rfl⟩) hg
    · rintro rfl
      exact hg (mem_add.mpr (.inr (mem_held_of_present hv hp)))
  | reaped h =>
    -- `freevm` gives back all that the directory holds, and no more
    obtain ⟨hs, -⟩ := hsep.sound
    obtain ⟨M₁, hrun, hfree, hpage⟩ := freevm_ok hs.held_nodup fun _ => hs.takes_held
    cases hrun.symm.trans h
    refine ⟨?_, fun g hg => hpage g fun hm => hg (mem_add.mpr (.inr hm)), by simp⟩
    rw [hfree, add_comm (M.held _)]
    exact le_of_eq (add_zero _)
  | @kallocs P f M' h =>
    cases hfree : M.free with
    | nil => cases (kalloc_nil hfree).symm.trans h
    | cons e fs =>
      cases (kalloc_cons hfree).symm.trans h
      refine ⟨le_of_eq ?_, fun _ _ => rfl, by simpa using hsep.sound.2⟩
      rw [Multiset.insert_eq_cons, heldBy_cons, heldBy_singleton, hfree, ← Multiset.cons_coe,
        ← Multiset.singleton_add]
      show (fs : Multiset ℕ) + (M.held P.pgdir + {f}) = {f} + fs + M.held P.pgdir
      abel
  | kernelStores b =>
    refine ⟨by rw [heldBy_singleton]; rfl, fun g hg => page_setPage_of_ne ?_, by simp⟩
    rintro rfl
    exact hg (mem_add.mpr (.inr (Multiset.mem_singleton_self _)))
  | kfrees h =>
    rw [kfree] at h
    split_ifs at h
    cases h
    refine ⟨le_of_eq ?_, fun g hg => Function.update_of_ne ?_ _ _, by simp⟩
    · rw [← Multiset.cons_coe, ← Multiset.singleton_add, add_comm {_}]
      exact add_zero _
    · rintro rfl
      exact hg (mem_add.mpr (.inr (Multiset.mem_singleton_self _)))

theorem Separate.notMem (h : Separate L M (x ::ₘ xs)) (hy : y ∈ xs) (hg : g ∈ M.heldOf y) :
    g ∉ (M.free : Multiset ℕ) + M.heldOf x := by
  have hn := h.nodup
  rw [heldBy_cons, ← add_assoc] at hn
  exact fun hm => Multiset.disjoint_left.mp (Multiset.nodup_add.mp hn).2.2 hm
    (Multiset.mem_bind.mpr ⟨y, hy, hg⟩)

/-- **What one holder does keeps all of them apart.** -/
theorem Separate.next (h : Separate L M (x ::ₘ xs)) (hb : Becomes x now M M') :
    Separate L M' (now + xs) := by
  have hxs : M'.heldBy xs = M.heldBy xs := by
    refine Multiset.bind_congr fun y hy => ?_
    cases y with
    | proc P => exact held_congr fun g hg => hb.page g (h.notMem hy (mem_add.mpr (.inl hg)))
    | kernel f => rfl
  have hle : (M'.free : Multiset ℕ) + M'.heldBy (now + xs) ≤ M.free + M.heldBy (x ::ₘ xs) := by
    rw [heldBy_cons, ← hxs, heldBy, Multiset.add_bind, ← add_assoc, ← add_assoc]
    exact add_le_add_left hb.le _
  refine ⟨nodup_of_le hle h.nodup, fun f hf => h.takes f (mem_of_le hle hf), fun P hP => ?_⟩
  obtain hP | hP := mem_add.mp hP
  · exact hb.sz P hP
  · exact h.sz P (Multiset.mem_cons_of_mem hP)

/-- What the memory and its holders come to. -/
inductive Runs (L : Layout) (M₀ : Mem) (xs₀ : Multiset Holder) : Mem → Multiset Holder → Prop where
  | start : Runs L M₀ xs₀ M₀ xs₀
  | next {M M' : Mem} {x : Holder} {xs now : Multiset Holder} (h : Runs L M₀ xs₀ M (x ::ₘ xs))
      (ha : Acts L M x now M') : Runs L M₀ xs₀ M' (now + xs)

/-- What a process has mapped below `KERNBASE` is its own and not the kernel's, is no page table
and is not free; and whatever others do leaves its address space alone, and what is in it. -/
structure Isolated (L : Layout) (M : Mem) (xs : Multiset Holder) : Prop where
  apart : ∀ P Q rest, xs = .proc P ::ₘ .proc Q ::ₘ rest → ∀ u < userPages, ∀ v < userPages,
    present (M.pte P.pgdir u) = true → present (M.pte Q.pgdir v) = true →
      pageOf (M.pte P.pgdir u) ≠ pageOf (M.pte Q.pgdir v)
  once : ∀ P, .proc P ∈ xs → ∀ u < userPages, ∀ v < userPages, present (M.pte P.pgdir u) = true →
    present (M.pte P.pgdir v) = true → pageOf (M.pte P.pgdir u) = pageOf (M.pte P.pgdir v) → u = v
  user : ∀ P, .proc P ∈ xs → ∀ u < userPages, present (M.pte P.pgdir u) = true →
    L.Allocatable (pageOf (M.pte P.pgdir u)) ∧ pageOf (M.pte P.pgdir u) ∉ M.free ∧
      .kernel (pageOf (M.pte P.pgdir u)) ∉ xs ∧
      ∀ Q, .proc Q ∈ xs → pageOf (M.pte P.pgdir u) ∉ M.nodes Q.pgdir
  others : ∀ x rest now M', xs = x ::ₘ rest → Acts L M x now M' → ∀ Q, .proc Q ∈ rest →
    ∀ v < userPages, M'.pte Q.pgdir v = M.pte Q.pgdir v ∧ (present (M.pte Q.pgdir v) = true →
      M'.page (pageOf (M.pte Q.pgdir v)) = M.page (pageOf (M.pte Q.pgdir v)))

/-- **Processes are isolated**, in every run, whatever they do and in whatever order. -/
theorem isolated_of_runs {M₀ : Mem} {xs₀ : Multiset Holder} (h₀ : Separate L M₀ xs₀)
    (h : Runs L M₀ xs₀ M xs) : Isolated L M xs := by
  have hsep : Separate L M xs := by
    induction h with
    | start => exact h₀
    | next h ha ih => exact ih.next (ih.becomes ha)
  refine ⟨?_, fun P hP u hu v hv hpu hpv heq => ?_, fun P hP u hu hp => ?_, ?_⟩
  · rintro P Q rest rfl u hu v hv hpu hpv heq
    refine hsep.notMem (Multiset.mem_cons_self (.proc Q) rest) (mem_held_of_present hv hpv) ?_
    exact mem_add.mpr (.inr (heq ▸ mem_held_of_present hu hpu))
  · obtain ⟨rest, rfl⟩ := Multiset.exists_cons_of_mem hP
    exact pageOf_inj (Multiset.nodup_add.mp hsep.sound.1.held_nodup).2.1 hu hv hpu hpv heq
  · obtain ⟨rest, rfl⟩ := Multiset.exists_cons_of_mem hP
    have hs := hsep.sound.1
    have hmem := mem_held_of_present hu hp
    refine ⟨hs.takes_held hmem, fun hf => hs.notMem_held hf hmem, fun hk => ?_, fun Q hQ hn => ?_⟩
    · obtain hk | hk := Multiset.mem_cons.mp hk
      · cases hk
      · exact hsep.notMem hk (Multiset.mem_singleton_self _) (mem_add.mpr (.inr hmem))
    · obtain hQ | hQ := Multiset.mem_cons.mp hQ
      · cases hQ
        exact notMem_nodes_of_mem_pages hs.held_nodup (mem_pages.mpr ⟨u, hu, hp, rfl⟩) hn
      · exact hsep.notMem hQ (mem_add.mpr (.inl hn)) (mem_add.mpr (.inr hmem))
  · rintro x rest now M' rfl ha Q hQ v hv
    have hb := hsep.becomes ha
    refine ⟨pte_congr (fun g hg => hb.page g ?_) (userPages_lt hv), fun hp => hb.page _ ?_⟩
    · exact hsep.notMem hQ (mem_add.mpr (.inl hg))
    · exact hsep.notMem hQ (mem_held_of_present hv hp)

/-- A process with one page forks. -/
theorem isolated_of_runs_fork : ∃ M P d M',
    Runs someLayout M {.proc P} M' {.proc P, .proc { P with pgdir := d }} ∧
      Isolated someLayout M' {.proc P, .proc { P with pgdir := d }} := by
  obtain ⟨M, hs, hspace, hlen⟩ := exists_onePage
    (show (1000 :: 1001 :: List.range' 1002 70).Nodup by decide +kernel) (by decide +kernel) (by decide)
  have hlen' : M.free.length = 69 := Nat.add_right_cancel hlen
  have hpages : ∀ v < pagesBetween 0 4096, present (M.pte 1000 v) = true := fun v hv =>
    (hspace v (hv.trans (by decide))).mpr hv
  obtain ⟨d, M₁, M', hrun, -⟩ := copyuvm_copied hs hpages (by decide) (by omega)
    (by rw [hlen']; decide)
  have h : Runs someLayout M {.proc ⟨1000, 4096, [], 0, 0⟩} M' _ := .next .start (.forks hrun)
  rw [add_zero] at h
  refine ⟨M, _, d, M', h, isolated_of_runs ⟨?_, ?_, ?_⟩ h⟩
  · rw [heldBy_singleton]
    exact hs.nodup
  · rw [heldBy_singleton]
    exact hs.takes
  · simp only [Multiset.mem_singleton, Holder.proc.injEq, forall_eq]
    decide

end Xv6.Vm.Mem
