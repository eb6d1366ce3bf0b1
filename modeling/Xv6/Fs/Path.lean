import Xv6.Fs.Calls
import Xv6.Lib.Fallible
import Xv6.Mkfs.Readback
import Mathlib.Data.List.TakeWhile

/-!
# Paths

`skipelem`, `dirlookup` and `namex` of `fs.c`, on the bytes: a path and a name are what stands
in memory from a pointer on, and behind the end of a list there is a NUL.  Directories are read
from an image with `ilock` and `readi`.

`skipelem` copies an element over the last one and puts a NUL behind it only if there is room,
so what is left of longer elements may follow it, or nothing may end it.  That does not matter
to `namecmp`, which sees the string in the buffer and no more (`namecmp_cstr`).

* `namexFrom_namei`, `namexFrom_parent` --- the loop of `namex` is a fold over the components,
  and stops before the last one if it is told to.

`iput` is not in the model: `namex` does not drop the last reference to an inode that has no
links as long as directory entries name inodes that have some.
-/

namespace Xv6.Path

open List Fallible
open Fs (slash)
open Mkfs (Img Inode ilock readi)

/-! ## `skipelem` -/

/-- The string in `name[DIRSIZ]`. -/
def cstr (name : List UInt8) : List UInt8 := (name.take dirsiz).takeWhile (· != 0)

/-- The buffer after `skipelem` has copied an element to it. -/
def setName (name elem : List UInt8) : List UInt8 :=
  if dirsiz ≤ elem.length then elem.take dirsiz else elem ++ 0 :: name.drop (elem.length + 1)

/-- `skipelem`: the new value of `path`, and that of the buffer. -/
def skipelem (path name : List UInt8) : Option (List UInt8 × List UInt8) :=
  let s := path.dropWhile (· == slash)
  if s.headD 0 = 0 then none
  else
    let path := s.dropWhile fun c => c != slash && c != 0
    some (path.dropWhile (· == slash),
      setName name (s.takeWhile fun c => c != slash && c != 0))

/-- What stands between the slashes of a path, if anything, cut to `DIRSIZ` bytes. -/
def components (path : List UInt8) : List (List UInt8) :=
  (((path.takeWhile (· != 0)).splitOn slash).filter (· ≠ [])).map (take dirsiz)

section

variable {path name rest buf elem : List UInt8}

theorem components_slash (path : List UInt8) : components (slash :: path) = components path := by
  rw [components, takeWhile_cons_of_pos (by decide), splitOn,
    ← nil_append (slash :: _), splitOnP_append_cons_of_forall_mem (by simp) _ (by simp)]
  rfl

theorem components_dropWhile (path : List UInt8) :
    components (path.dropWhile (· == slash)) = components path := by
  induction path with
  | nil => rfl
  | cons c path ih =>
    by_cases hc : c = slash
    · rw [dropWhile_cons_of_pos (by simp [hc]), ih, hc, components_slash]
    · rw [dropWhile_cons_of_neg (by simp [hc])]

theorem components_of_headD (h : path.headD 0 = 0) : components path = [] := by
  cases path with
  | nil => rfl
  | cons c path =>
    obtain rfl : c = 0 := h
    rfl

/-- An element, and then a slash or the end. -/
theorem components_append (he : elem ≠ []) (hmem : ∀ c ∈ elem, c ≠ slash ∧ c ≠ 0)
    (hend : rest.headD 0 = slash ∨ rest.headD 0 = 0) :
    components (elem ++ rest) = elem.take dirsiz :: components rest := by
  have hcut : (elem ++ rest).takeWhile (· != 0) = elem ++ rest.takeWhile (· != 0) :=
    takeWhile_append_of_pos fun c hc => by simp [(hmem c hc).2]
  have hns : ∀ c ∈ elem, (c == slash) = false := fun c hc => by simp [(hmem c hc).1]
  have hsingle := splitOnP_eq_singleton hns
  rw [components, hcut, splitOn]
  cases rest with
  | nil => simp [components, splitOn, hsingle, he]
  | cons c rest =>
    obtain rfl | rfl : c = slash ∨ c = 0 := hend
    · rw [takeWhile_cons_of_pos (by decide), splitOnP_append_cons_of_forall_mem hns _ (by simp),
        components_slash]
      simp [components, splitOn, he]
    · simp [components, splitOn, hsingle, he]

theorem headD_dropWhile {p : UInt8 → Bool} (hp : p 0 = false) (s : List UInt8) :
    p ((s.dropWhile p).headD 0) = false := by
  induction s with
  | nil => exact hp
  | cons c s ih =>
    rw [dropWhile_cons]
    split_ifs with hc
    · exact ih
    · simpa using hc

theorem cstr_setName (hmem : ∀ c ∈ elem, c ≠ 0) : cstr (setName name elem) = elem.take dirsiz := by
  have hall : ∀ c ∈ elem.take dirsiz, (c != 0) = true := fun c hc => by
    simpa using hmem c (mem_of_mem_take hc)
  rw [setName]
  split_ifs with hlen
  · rw [cstr, take_take, min_self, takeWhile_eq_self_iff.mpr hall]
  · obtain ⟨k, hk⟩ := Nat.exists_eq_add_of_lt (not_le.mp hlen)
    rw [take_of_length_le (not_le.mp hlen).le] at hall ⊢
    rw [cstr, hk, take_append, add_assoc, Nat.add_sub_cancel_left, take_of_length_le (by omega),
      take_succ_cons, takeWhile_append_of_pos hall]
    simp

theorem skipelem_none (h : skipelem path name = none) : components path = [] := by
  rw [skipelem] at h
  split_ifs at h with h0
  rw [← components_dropWhile, components_of_headD h0]

/-- **What `skipelem` takes off is the first component.** -/
theorem skipelem_some (h : skipelem path name = some (rest, buf)) :
    components path = cstr buf :: components rest ∧ rest.length < path.length ∧
      rest.headD 0 ≠ slash := by
  rw [skipelem] at h
  split_ifs at h with h0
  obtain ⟨rfl, rfl⟩ := Prod.mk.inj (Option.some.inj h)
  set s := path.dropWhile (· == slash) with hs
  set q : UInt8 → Bool := fun c => c != slash && c != 0
  have hmem : ∀ c ∈ s.takeWhile q, c ≠ slash ∧ c ≠ 0 := fun c hc => by
    simpa [q] using mem_takeWhile_imp hc
  have hend : (s.dropWhile q).headD 0 = slash ∨ (s.dropWhile q).headD 0 = 0 := by
    simpa [q, imp_iff_not_or] using headD_dropWhile (p := q) rfl s
  have hne : s.takeWhile q ≠ [] := by
    have hslash : (s.headD 0 == slash) = false := headD_dropWhile (p := (· == slash)) rfl path
    clear_value s
    cases s with
    | nil => exact absurd rfl h0
    | cons c s =>
      rw [takeWhile_cons_of_pos (by simpa [q] using ⟨by simpa using hslash, h0⟩)]
      exact cons_ne_nil _ _
  refine ⟨?_, ?_, by simpa using headD_dropWhile (p := (· == slash)) rfl (s.dropWhile q)⟩
  · rw [cstr_setName fun c hc => (hmem c hc).2, components_dropWhile,
      ← components_append hne hmem hend, takeWhile_append_dropWhile, hs, components_dropWhile]
  · have hlen := congrArg length (takeWhile_append_dropWhile (p := q) (l := s))
    rw [length_append] at hlen
    have h1 := length_dropWhile_le (· == slash) (s.dropWhile q)
    have h2 : s.length ≤ path.length := length_dropWhile_le _ _
    have h3 := length_pos_of_ne_nil hne
    omega

/-- A path that does not begin with a slash has a component, or is at its end. -/
theorem headD_eq_zero_iff (hs : path.headD 0 ≠ slash) : path.headD 0 = 0 ↔ components path = [] := by
  refine ⟨components_of_headD, fun h => ?_⟩
  by_contra h0
  cases path with
  | nil => exact h0 rfl
  | cons c path =>
    have hk : skipelem (c :: path) [] ≠ none := by
      rw [skipelem, dropWhile_cons_of_neg (by simpa using hs), if_neg h0]
      exact nofun
    obtain ⟨r, hr⟩ := Option.ne_none_iff_exists'.mp hk
    rw [(skipelem_some hr).1] at h
    cases h

/-- `skipelem` over and over again: the strings that it leaves in the buffer. -/
def elements (path name : List UInt8) : List (List UInt8) :=
  match _h : skipelem path name with
  | none => []
  | some (rest, buf) => cstr buf :: elements rest buf
termination_by path.length
decreasing_by exact (skipelem_some _h).2.1

theorem elements_eq (path name : List UInt8) : elements path name = components path := by
  fun_induction elements path name with
  | case1 path name h => rw [skipelem_none h]
  | case2 path name rest buf h ih => rw [(skipelem_some h).1, ih]

end

/-! ## `dirlookup` -/

def strncmp : ℕ → List UInt8 → List UInt8 → ℤ
  | 0, _, _ => 0
  | n + 1, p, q =>
    if p.headD 0 ≠ 0 ∧ p.headD 0 = q.headD 0 then strncmp n p.tail q.tail
    else (p.headD 0).toNat - (q.headD 0).toNat

def namecmp (s t : List UInt8) : ℤ := strncmp dirsiz s t

/-- How a lookup may end without an inode: it returns a null pointer, or panics with one of the
texts, or finds a hole in the directory, where `readi` allocates a block. -/
inductive Stop where
  | null
  | ilockNoType
  | dirlookupNotDir
  | dirlinkRead
  | hole

abbrev Lookup := Except Stop

/-- The loop of `dirlookup`, from `off` on. -/
def dirScan (d : Img) (dp : Inode) (name : List UInt8) (off : ℕ) : Lookup ℕ :=
  if off < dp.size then
    match readi d dp off 16 with
    | .elsewhere => throw .hole
    | .fails => throw .dirlinkRead
    | .bytes de =>
      let inum := (de.getD 0 0).toNat + 256 * (de.getD 1 0).toNat
      if de.length ≠ 16 then throw .dirlinkRead
      else if inum = 0 ∨ namecmp name (de.drop 2) ≠ 0 then dirScan d dp name (off + 16)
      else pure inum
  else throw .null
termination_by dp.size - off

/-- `dirlookup(dp, name, 0)`: the number of the inode that it returns. -/
def dirlookup (d : Img) (dp : Inode) (name : List UInt8) : Lookup ℕ :=
  if dp.type ≠ 1 then throw .dirlookupNotDir else dirScan d dp name 0

theorem strncmp_takeWhile (n : ℕ) (p q : List UInt8) :
    strncmp n ((p.take n).takeWhile (· != 0)) q = strncmp n p q := by
  induction n generalizing p q with
  | zero => rfl
  | succ n ih =>
    cases p with
    | nil => rfl
    | cons c p =>
      by_cases hc : c = 0
      · simp [strncmp, hc]
      · simp [strncmp, hc, ih]

/-- **Only the string in the buffer matters.** -/
theorem namecmp_cstr (name : List UInt8) : namecmp (cstr name) = namecmp name :=
  funext fun q => strncmp_takeWhile dirsiz name q

theorem dirlookup_cstr (d : Img) (dp : Inode) (name : List UInt8) :
    dirlookup d dp (cstr name) = dirlookup d dp name := by
  have hscan : ∀ off, dirScan d dp (cstr name) off = dirScan d dp name off := by
    intro off
    fun_induction dirScan d dp name off with
    | case1 off h hr => rw [dirScan, if_pos h, hr]
    | case2 off h hr => rw [dirScan, if_pos h, hr]
    | case3 off h de hr hlen =>
      rw [dirScan, if_pos h, hr]
      exact if_pos hlen
    | case4 off h de hr inum hlen hif ih =>
      rw [dirScan, if_pos h, hr, namecmp_cstr]
      exact ((if_neg hlen).trans (if_pos hif)).trans ih
    | case5 off h de hr inum hlen hif =>
      rw [dirScan, if_pos h, hr, namecmp_cstr]
      exact (if_neg hlen).trans (if_neg hif)
    | case6 off h => rw [dirScan, if_neg h]
  rw [dirlookup, dirlookup, hscan]

/-! ## `namex` -/

/-- `ilock`, which panics if the inode is free. -/
def lock (d : Img) (ip : ℕ) : Lookup Inode :=
  match ilock d ip with
  | none => throw .ilockNoType
  | some dp => pure dp

/-- The loop of `namex`, at the inode with number `ip`: the number of the inode that is
returned, and the buffer. -/
def namexFrom (d : Img) (parent : Bool) (ip : ℕ) (path name : List UInt8) :
    Lookup (ℕ × List UInt8) :=
  match _h : skipelem path name with
  | none => if parent then throw .null else pure (ip, name)
  | some (path, name) => do
    let dp ← lock d ip
    if dp.type ≠ 1 then throw .null
    else if parent ∧ path.headD 0 = 0 then pure (ip, name)
    else
      let next ← dirlookup d dp name
      namexFrom d parent next path name
termination_by path.length
decreasing_by exact (skipelem_some _h).2.1

/-- Where `namex` starts. -/
def start (cwd : ℕ) (path : List UInt8) : ℕ := if path.headD 0 = slash then rootino else cwd

/-- `namei`, for whatever happens to be in its buffer. -/
def namei (d : Img) (cwd : ℕ) (path name : List UInt8) : Lookup ℕ :=
  Prod.fst <$> namexFrom d false (start cwd path) path name

def nameiparent (d : Img) (cwd : ℕ) (path name : List UInt8) : Lookup (ℕ × List UInt8) :=
  namexFrom d true (start cwd path) path name

/-- One component: the inode must be a directory, which is looked into. -/
def child (d : Img) (ip : ℕ) (c : List UInt8) : Lookup ℕ := do
  let dp ← lock d ip
  if dp.type ≠ 1 then throw .null else dirlookup d dp c

/-- The left fold of `dirlookup`. -/
def resolve (d : Img) (ip : ℕ) (cs : List (List UInt8)) : Lookup ℕ := cs.foldlM (child d) ip

theorem resolve_concat (d : Img) (ip : ℕ) (cs : List (List UInt8)) (c : List UInt8) :
    resolve d ip (cs ++ [c]) = resolve d ip cs >>= fun i => child d i c := by
  simp [resolve]

section

variable {d : Img} {parent : Bool} {ip i : ℕ} {path name c : List UInt8} {cs : List (List UInt8)}

theorem namexFrom_nil (h : components path = []) :
    namexFrom d parent ip path name = if parent then throw .null else pure (ip, name) := by
  rw [namexFrom]
  split
  · rfl
  · next hs => cases h.symm.trans (skipelem_some hs).1

/-- One round of the loop. -/
theorem namexFrom_cons (d : Img) (name : List UInt8) (h : components path = c :: cs) :
    ∃ rest buf, cstr buf = c ∧ components rest = cs ∧ ∀ parent ip,
      namexFrom d parent ip path name = (do
        let dp ← lock d ip
        if dp.type ≠ 1 then throw .null
        else if parent ∧ cs = [] then pure (ip, buf)
        else
          let next ← dirlookup d dp c
          namexFrom d parent next rest buf) := by
  cases hs : skipelem path name with
  | none => cases h.symm.trans (skipelem_none hs)
  | some r =>
    obtain ⟨rest, buf⟩ := r
    obtain ⟨hcs, -, hslash⟩ := skipelem_some hs
    obtain ⟨rfl, rfl⟩ := cons.inj (h.symm.trans hcs)
    refine ⟨rest, buf, rfl, rfl, fun parent ip => ?_⟩
    simp only [dirlookup_cstr, ← headD_eq_zero_iff hslash]
    rw [namexFrom]
    split
    · next hn => cases hn.symm.trans hs
    · next hs' =>
      cases hs.symm.trans hs'
      rfl

theorem namexFrom_namei (d : Img) (ip : ℕ) (path name : List UInt8) :
    Prod.fst <$> namexFrom d false ip path name = resolve d ip (components path) := by
  induction hcs : components path generalizing ip path name with
  | nil =>
    rw [namexFrom_nil hcs]
    rfl
  | cons c cs ih =>
    obtain ⟨rest, buf, -, hrest, heq⟩ := namexFrom_cons d name hcs
    rw [heq, resolve, foldlM_cons, child, map_bind, bind_assoc]
    refine bind_congr fun dp => ?_
    split_ifs with hdir hp
    · rfl
    · exact absurd hp.1 (by decide)
    · rw [map_bind]
      exact bind_congr fun next => ih next rest buf hrest

/-- A path that has components is followed up to its last one, which is left in the buffer. -/
theorem namexFrom_parent (d : Img) (name : List UInt8) (h : components path = cs ++ [c]) :
    ∃ buf, cstr buf = c ∧ ∀ ip, namexFrom d true ip path name = (do
      let i ← resolve d ip cs
      let dp ← lock d i
      if dp.type ≠ 1 then throw .null else pure (i, buf)) := by
  induction cs generalizing path name with
  | nil =>
    obtain ⟨rest, buf, hc, -, heq⟩ := namexFrom_cons d name h
    exact ⟨buf, hc, fun ip => by rw [heq, resolve, foldlM_nil, pure_bind]; simp⟩
  | cons e cs ih =>
    obtain ⟨rest, buf, -, hrest, heq⟩ := namexFrom_cons d name h
    obtain ⟨buf', hc, hfrom⟩ := ih buf hrest
    refine ⟨buf', hc, fun ip => ?_⟩
    rw [heq, resolve, foldlM_cons, child, bind_assoc, bind_assoc]
    refine bind_congr fun dp => ?_
    split_ifs with hdir hp
    · rfl
    · exact absurd hp.2 (by simp)
    · exact bind_congr hfrom

end

section

variable {d : Img} {i : ℕ} {path c : List UInt8} {cs : List (List UInt8)}

theorem lock_eq_ok {dp : Inode} : lock d i = .ok dp ↔ ilock d i = some dp := by
  rw [lock]
  cases ilock d i with
  | none => exact ⟨nofun, nofun⟩
  | some dp' => exact ⟨fun h => by cases h; rfl, fun h => by cases h; rfl⟩

theorem child_eq_null : child d i c = .error .null ↔
    ∃ dp, ilock d i = some dp ∧ (dp.type ≠ 1 ∨ dirlookup d dp c = .error .null) := by
  have hlock : lock d i ≠ .error .null := by
    rw [lock]
    cases ilock d i <;> exact nofun
  simp only [child, bind_eq_error, hlock, false_or, lock_eq_ok]
  refine exists_congr fun dp => and_congr_right fun _ => ?_
  split_ifs with h
  · exact iff_of_true rfl (.inl h)
  · simp [h]

theorem nameiparent_eq_ok (d : Img) (cwd : ℕ) (name : List UInt8) (h : components path = cs ++ [c]) :
    ∃ buf, cstr buf = c ∧ ∀ r, nameiparent d cwd path name = .ok r ↔
      ∃ i, resolve d (start cwd path) cs = .ok i ∧
        ∃ dp, ilock d i = some dp ∧ dp.type = 1 ∧ r = (i, buf) := by
  obtain ⟨buf, hc, heq⟩ := namexFrom_parent d name h
  refine ⟨buf, hc, fun r => ?_⟩
  rw [nameiparent, heq, bind_eq_ok]
  refine exists_congr fun i => and_congr_right fun _ => ?_
  rw [bind_eq_ok]
  refine exists_congr fun dp => ?_
  rw [lock_eq_ok]
  refine and_congr_right fun _ => ?_
  split_ifs with hdir
  · exact iff_of_false nofun fun hr => hdir hr.1
  · exact ⟨fun hr => ⟨not_not.mp hdir, by cases hr; rfl⟩, fun hr => by rw [hr.2]; rfl⟩

end

/-- **Paths are resolved component by component.** Taking off elements with `skipelem` yields the
components of the path; `namei` is the left fold of `dirlookup` over them, from the root or the
current directory, and fails exactly where a component is to be looked up in what is not a
directory, or is absent; `nameiparent` succeeds exactly if there is a last component and those
before it lead to a directory, and looking up there what it has left in the buffer is `namei`. -/
theorem path_resolution (d : Img) (cwd : ℕ) (path name name' : List UInt8) :
    elements path name = components path ∧
    namei d cwd path name = resolve d (start cwd path) (components path) ∧
    (namei d cwd path name = .error .null ↔ ∃ cs c cs' i dp, components path = cs ++ c :: cs' ∧
      resolve d (start cwd path) cs = .ok i ∧ ilock d i = some dp ∧
        (dp.type ≠ 1 ∨ dirlookup d dp c = .error .null)) ∧
    ((∃ r, nameiparent d cwd path name' = .ok r) ↔ ∃ cs c i dp, components path = cs ++ [c] ∧
      resolve d (start cwd path) cs = .ok i ∧ ilock d i = some dp ∧ dp.type = 1) ∧
    ∀ i buf, nameiparent d cwd path name' = .ok (i, buf) →
      ∃ dp, ilock d i = some dp ∧ namei d cwd path name = dirlookup d dp buf := by
  have hnamei := namexFrom_namei d (start cwd path) path name
  refine ⟨elements_eq path name, hnamei, ?_, ?_⟩
  · rw [namei, hnamei, resolve, foldlM_eq_error]
    simp only [child_eq_null, exists_and_left]
    rfl
  obtain hcs | ⟨cs, c, hcs⟩ := eq_nil_or_concat' (components path)
  · have hnull : nameiparent d cwd path name' = .error .null := namexFrom_nil hcs
    simp [hnull, hcs]
  · obtain ⟨buf, hc, hok⟩ := nameiparent_eq_ok d cwd name' hcs
    constructor
    · constructor
      · rintro ⟨r, hr⟩
        obtain ⟨i, hi, dp, hdp, hdir, -⟩ := (hok r).mp hr
        exact ⟨cs, c, i, dp, hcs, hi, hdp, hdir⟩
      · rintro ⟨cs', c', i, dp, hcs', hi, hdp, hdir⟩
        obtain ⟨rfl, -⟩ := append_inj' (hcs.symm.trans hcs') rfl
        exact ⟨(i, buf), (hok _).mpr ⟨i, hi, dp, hdp, hdir, rfl⟩⟩
    · intro i buf' hr
      obtain ⟨j, hj, dp, hdp, hdir, heq⟩ := (hok _).mp hr
      obtain ⟨rfl, rfl⟩ := Prod.mk.inj heq
      refine ⟨dp, hdp, ?_⟩
      rw [namei, hnamei, hcs, resolve_concat, hj]
      show child d i c = _
      rw [child, lock_eq_ok.mpr hdp, ← hc]
      show (if dp.type ≠ 1 then _ else dirlookup d dp (cstr buf')) = _
      rw [if_neg (not_not.mpr hdir), dirlookup_cstr]

end Xv6.Path
