import Mathlib.Computability.Language

/-!
# The matcher of `grep`

`match`, `matchhere` and `matchstar` of `grep.c`.  A C string is the list of its bytes before the
NUL, so that `*text != '\0'` is that the list is not empty.

A pattern is read from left to right (`Pattern.read`): a character and a `*` behind it are one item,
any other character is one, a `^` in front and a `$` at the end are none.  What the items stand for
is said with the operations of `Language`, and `match_iff` is that the matcher finds it.
-/

namespace Xv6.Grep

open scoped Computability

/-- `'^'` -/
def caret : UInt8 := 94
/-- `'.'` -/
def dot : UInt8 := 46
/-- `'*'` -/
def star : UInt8 := 42
/-- `'$'` -/
def dollar : UInt8 := 36

/-! ## The code -/

/-- `matchstar`, where `here` is `matchhere` of the rest of the pattern. -/
def matchstar (here : List UInt8 → Bool) (c : UInt8) : List UInt8 → Bool
  | [] => here []
  | t :: text => here (t :: text) || (t == c || c == dot) && matchstar here c text

/-- The last test of `matchhere`, where `here` is `matchhere(re+1, ·)`. -/
def matchone (here : List UInt8 → Bool) (c : UInt8) : List UInt8 → Bool
  | [] => false
  | t :: text => (c == dot || c == t) && here text

def matchhere : List UInt8 → List UInt8 → Bool
  | [], _ => true
  | [c], text => if c = dollar then text.isEmpty else matchone (matchhere []) c text
  | c :: c' :: re, text =>
    if c' = star then matchstar (matchhere re) c text else matchone (matchhere (c' :: re)) c text

/-- The loop of `match`. -/
def matchAny (re : List UInt8) : List UInt8 → Bool
  | [] => matchhere re []
  | t :: text => matchhere re (t :: text) || matchAny re text

/-- `match` -/
def matchText : List UInt8 → List UInt8 → Bool
  | [], text => matchAny [] text
  | c :: re, text => if c = caret then matchhere re text else matchAny (c :: re) text

/-! ## What a pattern stands for -/

/-- An item of a pattern. -/
inductive Item where
  /-- A character, or `'.'`. -/
  | one (c : UInt8)
  /-- A character, or `'.'`, with a `'*'` behind it. -/
  | many (c : UInt8)

/-- A pattern, taken apart. -/
structure Pattern where
  /-- It starts with `'^'`. -/
  atStart : Bool
  items : List Item
  /-- It ends with `'$'`. -/
  atEnd : Bool

/-- The items from some place of the pattern on, and whether a final `'$'` follows. -/
def readItems : List UInt8 → List Item × Bool
  | [] => ([], false)
  | [c] => if c = dollar then ([], true) else ([.one c], false)
  | c :: c' :: re =>
    if c' = star then (.many c :: (readItems re).1, (readItems re).2)
    else (.one c :: (readItems (c' :: re)).1, (readItems (c' :: re)).2)

/-- The pattern that a string is. -/
def Pattern.read : List UInt8 → Pattern
  | [] => ⟨false, [], false⟩
  | c :: re =>
    if c = caret then ⟨true, (readItems re).1, (readItems re).2⟩
    else ⟨false, (readItems (c :: re)).1, (readItems (c :: re)).2⟩

/-- The characters that `c` stands for. -/
def charLang (c : UInt8) : Language UInt8 := {w | ∃ t, (c = dot ∨ c = t) ∧ w = [t]}

def Item.lang : Item → Language UInt8
  | .one c => charLang c
  | .many c => (charLang c)∗

/-- The words that the items stand for, one after the other. -/
def itemsLang (l : List Item) : Language UInt8 := (l.map Item.lang).prod

/-! ## The matcher finds it -/

variable {c : UInt8} {re text : List UInt8}

theorem cons_mem_charLang_mul {l : Language UInt8} {t : UInt8} {w : List UInt8} :
    t :: w ∈ charLang c * l ↔ (c = dot ∨ c = t) ∧ w ∈ l := by
  rw [Language.mem_mul]
  constructor
  · rintro ⟨_, ⟨t', ht, rfl⟩, v, hv, heq⟩
    obtain ⟨rfl, rfl⟩ := List.cons.inj heq
    exact ⟨ht, hv⟩
  · rintro ⟨ht, hw⟩
    exact ⟨[t], ⟨t, ht, rfl⟩, w, hw, rfl⟩

theorem nil_notMem_charLang_mul {l : Language UInt8} : [] ∉ charLang c * l := by
  rw [Language.mem_mul]
  rintro ⟨_, ⟨t, -, rfl⟩, v, -, heq⟩
  cases heq

theorem mem_kstar_charLang {w : List UInt8} :
    w ∈ (charLang c)∗ ↔ ∀ t ∈ w, c = dot ∨ c = t := by
  induction w with
  | nil => simp [Language.nil_mem_kstar]
  | cons t w ih =>
    rw [← Language.one_add_self_mul_kstar_eq_kstar, Language.mem_add, Language.mem_one,
      cons_mem_charLang_mul, ih, List.forall_mem_cons]
    simp

/-- Some beginning of `text` is in the language; the text ends there if it has to. -/
def Begins (l : Language UInt8) (atEnd : Bool) (text : List UInt8) : Prop :=
  ∃ w post, text = w ++ post ∧ w ∈ l ∧ (atEnd = true → post = [])

theorem begins_charLang_mul {l : Language UInt8} {b : Bool} {here : List UInt8 → Bool}
    (hhere : ∀ text, here text = true ↔ Begins l b text) :
    matchone here c text = true ↔ Begins (charLang c * l) b text := by
  cases text with
  | nil =>
    refine ⟨fun h => absurd h Bool.false_ne_true, ?_⟩
    rintro ⟨w, post, heq, hw, -⟩
    obtain ⟨rfl, -⟩ := List.append_eq_nil_iff.mp heq.symm
    exact absurd hw nil_notMem_charLang_mul
  | cons t text =>
    rw [matchone, Bool.and_eq_true, Bool.or_eq_true, beq_iff_eq, beq_iff_eq, hhere]
    constructor
    · rintro ⟨ht, w, post, rfl, hw, hend⟩
      exact ⟨t :: w, post, rfl, cons_mem_charLang_mul.mpr ⟨ht, hw⟩, hend⟩
    · rintro ⟨w, post, heq, hw, hend⟩
      cases w with
      | nil => exact absurd hw nil_notMem_charLang_mul
      | cons t' w =>
        obtain ⟨rfl, rfl⟩ := List.cons.inj heq
        obtain ⟨ht, hw⟩ := cons_mem_charLang_mul.mp hw
        exact ⟨ht, w, post, rfl, hw, hend⟩

/-- The loop of `matchstar` leaves out some characters, all of them right ones. -/
theorem matchstar_iff {here : List UInt8 → Bool} :
    ∀ {text : List UInt8}, matchstar here c text = true ↔
      ∃ u v, text = u ++ v ∧ u ∈ (charLang c)∗ ∧ here v = true
  | [] => by
    rw [matchstar]
    refine ⟨fun h => ⟨[], [], rfl, Language.nil_mem_kstar _, h⟩, ?_⟩
    rintro ⟨u, v, heq, -, hv⟩
    obtain ⟨-, rfl⟩ := List.append_eq_nil_iff.mp heq.symm
    exact hv
  | t :: text => by
    rw [matchstar, Bool.or_eq_true, Bool.and_eq_true, matchstar_iff, Bool.or_eq_true, beq_iff_eq,
      beq_iff_eq]
    constructor
    · rintro (h | ⟨ht, u, v, rfl, hu, hv⟩)
      · exact ⟨[], t :: text, rfl, Language.nil_mem_kstar _, h⟩
      · refine ⟨t :: u, v, rfl, mem_kstar_charLang.mpr ?_, hv⟩
        exact List.forall_mem_cons.mpr ⟨ht.symm.imp_right Eq.symm, mem_kstar_charLang.mp hu⟩
    · rintro ⟨u, v, heq, hu, hv⟩
      cases u with
      | nil =>
        rw [List.nil_append] at heq
        exact .inl (heq ▸ hv)
      | cons t' u =>
        obtain ⟨rfl, rfl⟩ := List.cons.inj heq
        obtain ⟨ht, hu⟩ := List.forall_mem_cons.mp (mem_kstar_charLang.mp hu)
        exact .inr ⟨ht.symm.imp_left Eq.symm, u, v, rfl, mem_kstar_charLang.mpr hu, hv⟩

theorem begins_one_iff {text : List UInt8} : Begins 1 true text ↔ text = [] := by
  constructor
  · rintro ⟨w, post, rfl, hw, hend⟩
    rw [(Language.mem_one _).mp hw, hend rfl, List.append_nil]
  · rintro rfl
    exact ⟨[], [], rfl, (Language.mem_one _).mpr rfl, fun _ => rfl⟩

theorem matchhere_iff : ∀ (re text : List UInt8),
    matchhere re text = true ↔ Begins (itemsLang (readItems re).1) (readItems re).2 text
  | [], text => ⟨fun _ => ⟨[], text, rfl, (Language.mem_one _).mpr rfl, fun h => absurd h (by decide)⟩,
      fun _ => rfl⟩
  | [c], text => by
    rw [matchhere, readItems]
    split
    · rw [List.isEmpty_iff, ← begins_one_iff]
      rfl
    · exact begins_charLang_mul fun text => matchhere_iff [] text
  | c :: c' :: re, text => by
    rw [matchhere, readItems]
    split
    · simp only [matchstar_iff, matchhere_iff re, Begins, itemsLang, List.map_cons, List.prod_cons,
        Item.lang, Language.mem_mul]
      constructor
      · rintro ⟨u, _, rfl, hu, w, post, rfl, hw, hend⟩
        exact ⟨u ++ w, post, (List.append_assoc ..).symm, ⟨u, hu, w, hw, rfl⟩, hend⟩
      · rintro ⟨_, post, rfl, ⟨u, hu, w, hw, rfl⟩, hend⟩
        exact ⟨u, w ++ post, List.append_assoc .., hu, w, post, rfl, hw, hend⟩
    · exact begins_charLang_mul fun text => matchhere_iff (c' :: re) text

theorem matchAny_iff : ∀ {text : List UInt8},
    matchAny re text = true ↔ ∃ before rest, text = before ++ rest ∧ matchhere re rest = true
  | [] => by
    rw [matchAny]
    refine ⟨fun h => ⟨[], [], rfl, h⟩, ?_⟩
    rintro ⟨before, rest, heq, h⟩
    obtain ⟨-, rfl⟩ := List.append_eq_nil_iff.mp heq.symm
    exact h
  | t :: text => by
    rw [matchAny, Bool.or_eq_true, matchAny_iff]
    constructor
    · rintro (h | ⟨before, rest, rfl, h⟩)
      · exact ⟨[], t :: text, rfl, h⟩
      · exact ⟨t :: before, rest, rfl, h⟩
    · rintro ⟨before, rest, heq, h⟩
      cases before with
      | nil =>
        rw [List.nil_append] at heq
        exact .inl (heq ▸ h)
      | cons t' before =>
        obtain ⟨rfl, rfl⟩ := List.cons.inj heq
        exact .inr ⟨before, rest, rfl, h⟩

/-- Some part of the text is what the pattern stands for: a beginning if it starts with `'^'`, and an
end if it ends with `'$'`. -/
def Pattern.Occurs (p : Pattern) (text : List UInt8) : Prop :=
  ∃ before w post, text = before ++ w ++ post ∧ w ∈ itemsLang p.items ∧
    (p.atStart = true → before = []) ∧ (p.atEnd = true → post = [])

/-- **The matcher is right.** -/
theorem match_iff (re text : List UInt8) :
    matchText re text = true ↔ (Pattern.read re).Occurs text := by
  have hany : ∀ re, matchAny re text = true ↔
      Pattern.Occurs ⟨false, (readItems re).1, (readItems re).2⟩ text := by
    intro re
    simp only [matchAny_iff, matchhere_iff, Begins, Pattern.Occurs]
    constructor
    · rintro ⟨before, _, rfl, w, post, rfl, hw, hend⟩
      exact ⟨before, w, post, (List.append_assoc ..).symm, hw, fun h => absurd h (by decide), hend⟩
    · rintro ⟨before, w, post, rfl, hw, -, hend⟩
      exact ⟨before, w ++ post, List.append_assoc .., w, post, rfl, hw, hend⟩
  cases re with
  | nil => exact hany []
  | cons c re =>
    rw [matchText, Pattern.read]
    split
    · rw [matchhere_iff]
      constructor
      · rintro ⟨w, post, rfl, hw, hend⟩
        exact ⟨[], w, post, rfl, hw, fun _ => rfl, hend⟩
      · rintro ⟨before, w, post, rfl, hw, hstart, hend⟩
        obtain rfl := hstart rfl
        exact ⟨w, post, rfl, hw, hend⟩
    · exact hany (c :: re)

end Xv6.Grep
