import Xv6.Param
import Xv6.Lib.Bytes
import Xv6.Lib.Radix

/-!
# Physical pages and page directories

The page allocator of `kalloc.c` and the functions of `vm.c`, over a physical memory whose
pages hold bytes.  A page is given by its number, so that its physical address is the number
times `PGSIZE`; `p2v` and `v2p` do not appear.  Entries of page directories and page tables
are words in such pages, and are read and written there.

* Addresses are natural numbers below `2 ^ 32`, and arithmetic on them is taken modulo
  `2 ^ 32` where it can wrap.
* `kmem.freelist` is a list.  `kfree` fills a page with junk; the link that it then stores in
  the page is not modelled.
* A function that panics, or uses a null pointer, ends with a `Stop`.
* `walkpgdir` is `walk` when its argument `alloc` is zero, and `walkAlloc` otherwise.
* `loaduvm` and `copyout` also give the stores that they have made to user memory.
* The linker decides where the kernel ends.  `Layout` is what is needed of `kernel.ld`.

A loop `for(a = lo; a < hi; a += PGSIZE)` runs for `pagesBetween lo hi` steps.  The loop of
`deallocuvm` may take larger steps; it has as much fuel as there are pages.
-/

namespace Xv6.Vm

/-! ## `mmu.h` and `memlayout.h` -/

def pgsize : ℕ := 4096

/-- `NPTENTRIES`, and `NPDENTRIES` -/
def nptentries : ℕ := 1024

def kernbase : ℕ := 0x80000000

def extmem : ℕ := 0x100000

def phystop : ℕ := 0xE000000

def devspace : ℕ := 0xFE000000

def kernlink : ℕ := kernbase + extmem

def pteP : ℕ := 1

def pteW : ℕ := 2

def pteU : ℕ := 4

def pgroundup (a : ℕ) : ℕ := (a + (pgsize - 1)) % 2 ^ 32 / pgsize * pgsize

def pgrounddown (a : ℕ) : ℕ := a / pgsize * pgsize

def pdx (va : ℕ) : ℕ := va / (pgsize * nptentries) % nptentries

def ptx (va : ℕ) : ℕ := va / pgsize % nptentries

/-- The entries of page directories and page tables: whether `PTE_P` is set, and the number of
the page at `PTE_ADDR`. -/
def format : Radix.Format where
  fan := nptentries
  present e := e.testBit 0
  page e := e / pgsize
  absent_zero := rfl

/-- `*pte & PTE_P` -/
abbrev present (e : ℕ) : Bool := format.present e

/-- The page of `PTE_ADDR(*pte)`. -/
abbrev pageOf (e : ℕ) : ℕ := format.page e

/-- `*pte & PTE_W` -/
def writable (e : ℕ) : Bool := e.testBit 1

/-- `*pte & PTE_U` -/
def user (e : ℕ) : Bool := e.testBit 2

/-- `PTE_FLAGS` -/
def flags (e : ℕ) : ℕ := e % pgsize

/-- The number of steps of a loop `for(a = lo; a < hi; a += PGSIZE)`. -/
def pagesBetween (lo hi : ℕ) : ℕ := (hi - lo + (pgsize - 1)) / pgsize

/-- Where the linker puts `data` and `end`. -/
structure Layout where
  data : ℕ
  kend : ℕ
  text : kernlink < data
  aligned : data % pgsize = 0
  ordered : data ≤ kend
  fits : kend < kernbase + phystop

/-- The pages that `kfree` takes. -/
def Layout.Allocatable (L : Layout) (f : ℕ) : Prop :=
  L.kend ≤ kernbase + f * pgsize ∧ f * pgsize < phystop

instance (L : Layout) : DecidablePred L.Allocatable := fun _ => inferInstanceAs (Decidable (_ ∧ _))

/-! ## Memory -/

/-- What stops the kernel. -/
inductive Stop where
  | kfree
  | remap
  /-- `"PHYSTOP too high"` -/
  | phystop
  /-- `"loaduvm: addr must be page aligned"` -/
  | loaduvmAligned
  /-- `"loaduvm: address should exist"` -/
  | loaduvmExist
  /-- `"freevm: no pgdir"` -/
  | freevm
  | clearpteu
  /-- `"copyuvm: pte should exist"` -/
  | copyuvmExist
  /-- `"copyuvm: page not present"` -/
  | copyuvmPresent
  | filedup
  | fileclose
  /-- `"init exiting"` -/
  | initExiting
  /-- The use of a null pointer. -/
  | null
  /-- A loop that does not end. -/
  | loops
  deriving DecidableEq

/-- What `readi` does with an inode: the bytes that it stores when it is called the `k`-th time, for
an offset and a number of bytes; `none` is `-1`. -/
structure Reader where
  read : ℕ → ℕ → ℕ → Option (List UInt8)
  length_le : ∀ {k off n bs}, read k off n = some bs → bs.length ≤ n

/-- What `readi` does with a regular file that holds `data`. -/
def Reader.ofFile (data : List UInt8) : Reader where
  read _ off n := if data.length < off ∨ 2 ^ 32 ≤ off + n then none else some ((data.drop off).take n)
  length_le := by
    intro _ off n bs h
    split at h
    · cases h
    · cases h
      exact List.length_take_le n _

/-- A store to user memory: the address, the entry of the page, and the bytes. -/
structure Store where
  va : ℕ
  pte : ℕ
  bytes : List UInt8

/-- Physical memory, and the pages on the free list. -/
structure Mem where
  page : ℕ → Bytes pgsize
  free : List ℕ

namespace Mem

/-- Word `i` of page `f`. -/
def word (M : Mem) (f i : ℕ) : ℕ := (M.page f).num (4 * i) 4

/-- Store into a page. -/
def setPage (M : Mem) (f : ℕ) (b : Bytes pgsize) : Mem :=
  { M with page := Function.update M.page f b }

def setWord (M : Mem) (f i x : ℕ) : Mem := M.setPage f ((M.page f).setNum (4 * i) 4 x)

/-- `memset(v, 0, PGSIZE)` -/
def zero (M : Mem) (f : ℕ) : Mem := M.setPage f Bytes.zero

/-- `memmove` of `bs` to offset `off` of page `f`. -/
def write (M : Mem) (f off : ℕ) (bs : List UInt8) : Mem := M.setPage f ((M.page f).copy off bs)

/-! ## `kalloc.c` -/

def kalloc (M : Mem) : Option ℕ × Mem :=
  match M.free with
  | [] => (none, M)
  | f :: fs => (some f, { M with free := fs })

/-- `kfree` of a page. -/
def kfree (L : Layout) (M : Mem) (f : ℕ) : Except Stop Mem :=
  if kernbase + f * pgsize < L.kend ∨ phystop ≤ f * pgsize then .error .kfree
  else .ok { page := Function.update M.page f fun _ => 1, free := f :: M.free }

/-! ## Page directories -/

/-- `walkpgdir(pgdir, va, 0)`: a page table and an index into it. -/
def walk (M : Mem) (d va : ℕ) : Option (ℕ × ℕ) :=
  let pde := M.word d (pdx va)
  if present pde then some (pageOf pde, ptx va) else none

/-- `walkpgdir(pgdir, va, 1)` -/
def walkAlloc (M : Mem) (d va : ℕ) : Option (ℕ × ℕ) × Mem :=
  match M.walk d va with
  | some p => (some p, M)
  | none =>
    match M.kalloc with
    | (none, M) => (none, M)
    | (some t, M) =>
      (some (t, ptx va),
        (M.zero t).setWord d (pdx va) (t * pgsize ||| pteP ||| pteW ||| pteU))

/-- One step of the loop of `mappages`; `false` if there is no page for the page table. -/
def mapPage (M : Mem) (d a pa perm : ℕ) : Except Stop (Bool × Mem) :=
  match M.walkAlloc d a with
  | (none, M) => .ok (false, M)
  | (some (t, i), M) =>
    if present (M.word t i) then .error .remap
    else .ok (true, M.setWord t i (pa ||| perm ||| pteP))

/-- The loop of `mappages`, with `n` steps after this one. -/
def mapFrom (d perm : ℕ) : ℕ → ℕ → ℕ → Mem → Except Stop (Bool × Mem)
  | 0, a, pa, M => M.mapPage d a pa perm
  | n + 1, a, pa, M => do
    let (done, M) ← M.mapPage d a pa perm
    if done then mapFrom d perm n ((a + pgsize) % 2 ^ 32) ((pa + pgsize) % 2 ^ 32) M
    else pure (false, M)

/-- `mappages`; `false` is `-1`. -/
def mappages (M : Mem) (d va size pa perm : ℕ) : Except Stop (Bool × Mem) :=
  let a := pgrounddown va
  let last := pgrounddown ((va + size + (2 ^ 32 - 1)) % 2 ^ 32)
  mapFrom d perm ((last + 2 ^ 32 - a) % 2 ^ 32 / pgsize) a pa M

/-- The loop of `deallocuvm`. -/
def deallocFrom (L : Layout) (d oldsz : ℕ) : ℕ → ℕ → Mem → Except Stop Mem
  | 0, _, _ => .error .loops
  | fuel + 1, a, M =>
    if a < oldsz then
      match M.walk d a with
      | none =>
        deallocFrom L d oldsz fuel ((a + (nptentries - 1) * pgsize + pgsize) % 2 ^ 32) M
      | some (t, i) =>
        let pte := M.word t i
        if present pte then
          if pageOf pte = 0 then .error .kfree
          else do
            let M ← M.kfree L (pageOf pte)
            deallocFrom L d oldsz fuel ((a + pgsize) % 2 ^ 32) (M.setWord t i 0)
        else deallocFrom L d oldsz fuel ((a + pgsize) % 2 ^ 32) M
    else .ok M

def deallocuvm (L : Layout) (M : Mem) (d oldsz newsz : ℕ) : Except Stop (ℕ × Mem) :=
  if oldsz ≤ newsz then .ok (oldsz, M)
  else do
    let M ← deallocFrom L d oldsz (2 ^ 32 / pgsize + 1) (pgroundup newsz) M
    pure (newsz, M)

/-- The loop of `allocuvm`, with `n` pages to come. -/
def allocFrom (L : Layout) (d oldsz newsz : ℕ) : ℕ → ℕ → Mem → Except Stop (ℕ × Mem)
  | 0, _, M => .ok (newsz, M)
  | n + 1, a, M =>
    match M.kalloc with
    | (none, M) => do
      let (_, M) ← deallocuvm L M d newsz oldsz
      pure (0, M)
    | (some f, M) => do
      -- what `mappages` returns is not looked at
      let (_, M) ← (M.zero f).mappages d a pgsize (f * pgsize) (pteW ||| pteU)
      allocFrom L d oldsz newsz n (a + pgsize) M

def allocuvm (L : Layout) (M : Mem) (d oldsz newsz : ℕ) : Except Stop (ℕ × Mem) :=
  if kernbase ≤ newsz then .ok (0, M)
  else if newsz < oldsz then .ok (oldsz, M)
  else allocFrom L d oldsz newsz (pagesBetween (pgroundup oldsz) newsz) (pgroundup oldsz) M

/-- What `growproc` does to the process: what it returns, `proc->sz`, and the memory. -/
def growproc (L : Layout) (M : Mem) (pgdir sz : ℕ) (n : ℤ) : Except Stop (ℤ × ℕ × Mem) :=
  let newsz := ((sz + n) % 2 ^ 32).toNat
  if 0 < n then do
    let (r, M) ← allocuvm L M pgdir sz newsz
    if r = 0 then pure (-1, sz, M) else pure (0, r, M)
  else if n < 0 then do
    let (r, M) ← deallocuvm L M pgdir sz newsz
    if r = 0 then pure (-1, sz, M) else pure (0, r, M)
  else pure (0, sz, M)

/-- The loop of `freevm` over the entries of the directory from `i` on. -/
def freeTables (L : Layout) (d : ℕ) : List ℕ → Mem → Except Stop Mem
  | [], M => .ok M
  | i :: is, M =>
    if present (M.word d i) then do
      let M ← M.kfree L (pageOf (M.word d i))
      freeTables L d is M
    else freeTables L d is M

def freevm (L : Layout) (M : Mem) : Option ℕ → Except Stop Mem
  | none => .error .freevm
  | some d => do
    let (_, M) ← deallocuvm L M d kernbase 0
    let M ← freeTables L d (List.range nptentries) M
    M.kfree L d

/-- An entry of `kmap`. -/
structure Kmap where
  virt : ℕ
  physStart : ℕ
  physEnd : ℕ
  perm : ℕ

def kmap (L : Layout) : List Kmap :=
  [⟨kernbase, 0, extmem, pteW⟩,
   ⟨kernlink, kernlink - kernbase, L.data - kernbase, 0⟩,
   ⟨L.data, L.data - kernbase, phystop, pteW⟩,
   ⟨devspace, devspace, 0, pteW⟩]

/-- The loop of `setupkvm`; on `false` the pages that were taken are not given back. -/
def mapKernel (d : ℕ) : List Kmap → Mem → Except Stop (Bool × Mem)
  | [], M => .ok (true, M)
  | k :: ks, M => do
    let (done, M) ←
      M.mappages d k.virt ((k.physEnd + 2 ^ 32 - k.physStart) % 2 ^ 32) k.physStart k.perm
    if done then mapKernel d ks M else pure (false, M)

def setupkvm (L : Layout) (M : Mem) : Except Stop (Option ℕ × Mem) :=
  match M.kalloc with
  | (none, M) => .ok (none, M)
  | (some d, M) =>
    if devspace < kernbase + phystop then .error .phystop
    else do
      let (done, M) ← mapKernel d (kmap L) (M.zero d)
      pure (if done then some d else none, M)

def clearpteu (M : Mem) (d uva : ℕ) : Except Stop Mem :=
  match M.walk d uva with
  | none => .error .clearpteu
  | some (t, i) =>
    let pte := M.word t i
    .ok (M.setWord t i (if user pte then pte - pteU else pte))

/-- The loop of `copyuvm`, with `n` pages to come; `false` is `goto bad`. -/
def copyFrom (pgdir d : ℕ) : ℕ → ℕ → Mem → Except Stop (Bool × Mem)
  | 0, _, M => .ok (true, M)
  | n + 1, i, M =>
    match M.walk pgdir i with
    | none => .error .copyuvmExist
    | some (t, k) =>
      let pte := M.word t k
      if present pte then
        match M.kalloc with
        | (none, M) => .ok (false, M)
        | (some f, M) => do
          let (done, M) ←
            (M.setPage f (M.page (pageOf pte))).mappages d i pgsize (f * pgsize) (flags pte)
          if done then copyFrom pgdir d n (i + pgsize) M else pure (false, M)
      else .error .copyuvmPresent

def copyuvm (L : Layout) (M : Mem) (pgdir sz : ℕ) : Except Stop (Option ℕ × Mem) := do
  match ← setupkvm L M with
  | (none, M) => pure (none, M)
  | (some d, M) => do
    let (done, M) ← copyFrom pgdir d (pagesBetween 0 sz) 0 M
    if done then pure (some d, M)
    else do
      let M ← M.freevm L (some d)
      pure (none, M)

/-- The loop of `loaduvm`, with `n` steps to come. -/
def loadFrom (rd : Reader) (d addr off sz : ℕ) :
    ℕ → ℕ → ℕ → Mem → Except Stop (Bool × ℕ × List Store × Mem)
  | 0, i, k, M => if i < 2 ^ 32 then .ok (true, k, [], M) else .error .loops
  | n + 1, i, k, M =>
    match M.walk d ((addr + i) % 2 ^ 32) with
    | none => .error .loaduvmExist
    | some (t, j) =>
      let pte := M.word t j
      let m := if sz - i < pgsize then sz - i else pgsize
      match rd.read k ((off + i) % 2 ^ 32) m with
      | none => .ok (false, k + 1, [], M)
      | some bs =>
        let M := M.write (pageOf pte) 0 bs
        let store : Store := ⟨(addr + i) % 2 ^ 32, pte, bs⟩
        if bs.length = m then do
          let (done, k, stores, M) ← loadFrom rd d addr off sz n (i + pgsize) (k + 1) M
          pure (done, k, store :: stores, M)
        else .ok (false, k + 1, [store], M)

/-- `loaduvm`; `false` is `-1`.  `k` counts the calls of `readi`. -/
def loaduvm (rd : Reader) (k : ℕ) (M : Mem) (d addr off sz : ℕ) :
    Except Stop (Bool × ℕ × List Store × Mem) :=
  if addr % pgsize ≠ 0 then .error .loaduvmAligned
  else loadFrom rd d addr off sz (pagesBetween 0 sz) 0 k M

/-- `uva2ka`: the entry, if user code may use the page. -/
def uva2ka (M : Mem) (d uva : ℕ) : Except Stop (Option ℕ) :=
  match M.walk d uva with
  | none => .error .null
  | some (t, i) =>
    let pte := M.word t i
    .ok (if present pte ∧ user pte then some pte else none)

/-- The loop of `copyout`; every step copies a byte or more. -/
def copyoutFrom (d : ℕ) : ℕ → ℕ → List UInt8 → Mem → Except Stop (Bool × List Store × Mem)
  | 0, _, _, M => .ok (true, [], M)
  | fuel + 1, va, p, M =>
    if p = [] then .ok (true, [], M)
    else do
      match ← M.uva2ka d (pgrounddown va) with
      | none => pure (false, [], M)
      | some pte =>
        let n := pgsize - va % pgsize
        let (done, stores, M) ← copyoutFrom d fuel ((pgrounddown va + pgsize) % 2 ^ 32) (p.drop n)
          (M.write (pageOf pte) (va % pgsize) (p.take n))
        pure (done, ⟨va, pte, p.take n⟩ :: stores, M)

/-- `copyout`; `false` is `-1`. -/
def copyout (M : Mem) (d va : ℕ) (p : List UInt8) : Except Stop (Bool × List Store × Mem) :=
  copyoutFrom d p.length va p M

end Mem
end Xv6.Vm
