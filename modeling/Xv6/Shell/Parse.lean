import Mathlib.Data.List.DropRight
import Mathlib.Data.UInt
import Mathlib.Tactic.Common

/-!
# The parser of the shell

`sh.c` from `gettoken` to `parseexec`.  A pointer into the line is what is left of the line from there
on, up to the NUL; `es` is the end.  `peek` moves the cursor past blanks and looks at one character,
which tells the kind of the token there.  The functions call each other and share the cursor, so they
get fuel; a parser that runs out of it has not come to an end.

* `tokens` --- what `gettoken` returns, called again and again; `peek_eq` reads `peek` off it.
-/

namespace Xv6.Shell

open List

/-! ## Tokens -/

/-- `strchr(whitespace, c)` -/
def isSpace (c : UInt8) : Bool := [32, 9, 13, 10, 11].contains c

/-- `strchr(symbols, c)` -/
def isSymbol (c : UInt8) : Bool := [60, 124, 62, 38, 59, 40, 41].contains c

def inWord (c : UInt8) : Bool := !isSpace c && !isSymbol c

/-- A pointer into the line. -/
abbrev Ptr := List UInt8

/-- A word of the line, from `q` to `eq`. -/
structure Word where
  q : Ptr
  eq : Ptr
  deriving DecidableEq

inductive Tok where
  | word (w : Word)
  | bar
  | lpar
  | rpar
  | semi
  | amp
  | lt
  | gt
  | gtgt
  deriving DecidableEq

/-- `while(s < es && strchr(whitespace, *s)) s++` -/
def skip (s : Ptr) : Ptr := s.dropWhile isSpace

/-- The tokens of one character. -/
def single (c : UInt8) : Option Tok :=
  if c = 124 then some .bar
  else if c = 40 then some .lpar
  else if c = 41 then some .rpar
  else if c = 59 then some .semi
  else if c = 38 then some .amp
  else if c = 60 then some .lt
  else none

/-- `gettoken`: the token, `none` at the end, and the cursor after it. -/
def gettoken (s : Ptr) : Option Tok × Ptr :=
  match skip s with
  | [] => (none, [])
  | c :: r =>
    match single c with
    | some t => (some t, skip r)
    | none =>
      if c = 62 then
        match r with
        | [] => (some .gt, [])
        | c :: r => if c = 62 then (some .gtgt, skip r) else (some .gt, skip (c :: r))
      else (some (.word ⟨c :: r, (c :: r).dropWhile inWord⟩), skip ((c :: r).dropWhile inWord))

/-- What `peek` returns; it leaves the cursor at `skip s`. -/
def peek (s : Ptr) (toks : List UInt8) : Bool :=
  match skip s with
  | [] => false
  | c :: _ => toks.contains c

theorem skip_suffix (s : Ptr) : skip s <:+ s := s.dropWhile_suffix isSpace

theorem skip_skip (s : Ptr) : skip (skip s) = skip s := dropWhile_idempotent ..

theorem gettoken_skip (s : Ptr) : gettoken (skip s) = gettoken s := by
  rw [gettoken, gettoken, skip_skip]

theorem peek_skip (s : Ptr) (toks : List UInt8) : peek (skip s) toks = peek s toks := by
  rw [peek, peek, skip_skip]

/-- The character that `gettoken` returns for a token, but for that of `>>`. -/
def Tok.lead : Tok → UInt8
  | .word _ => 97
  | .bar => 124
  | .lpar => 40
  | .rpar => 41
  | .semi => 59
  | .amp => 38
  | .lt => 60
  | .gt | .gtgt => 62

theorem lead_of_single {c : UInt8} {t : Tok} (h : single c = some t) :
    t.lead = c ∧ ∀ w, t ≠ .word w := by
  unfold single at h
  split_ifs at h with h1 h2 h3 h4 h5 h6 <;> cases h <;> refine ⟨?_, fun _ h => by cases h⟩ <;>
    exact (by assumption : c = _).symm

theorem isSymbol_of_single {c : UInt8} (h : single c = none) (hgt : c ≠ 62) : isSymbol c = false := by
  unfold single at h
  split_ifs at h
  simp [isSymbol, *]

/-- A token `t` is at `s`, and `s'` comes after it. -/
structure Lexes (s : Ptr) (t : Tok) (s' : Ptr) : Prop where
  suffix : s' <:+ s
  length : s'.length < s.length
  word : ∀ w, t = .word w → w.q <:+ s ∧ w.eq = w.q.dropWhile inWord
  peek : ∀ toks, toks.all isSymbol = true → peek s toks = toks.contains t.lead

/-- **What `gettoken` does.** -/
theorem gettoken_spec {s s' : Ptr} {t : Tok} (h : gettoken s = (some t, s')) : Lexes s t s' := by
  have hsuf := skip_suffix s
  rw [gettoken] at h
  rcases hs : skip s with _ | ⟨c, r⟩ <;> rw [hs] at h hsuf
  · cases h
  have hpeek : ∀ toks, peek s toks = toks.contains c := fun toks => by rw [peek, hs]
  have hlen := hsuf.length_le
  rw [length_cons] at hlen
  -- the cursor goes on somewhere after the first character
  have hgo : ∀ {r'}, r' <:+ r → skip r' <:+ s ∧ (skip r').length < s.length := fun hr' =>
    have hskip := (skip_suffix _).trans hr'
    ⟨hskip.trans ((suffix_cons c r).trans hsuf), lt_of_le_of_lt hskip.length_le hlen⟩
  dsimp only at h
  split at h
  · rename_i hsingle
    obtain ⟨hlead, hword⟩ := lead_of_single hsingle
    cases h
    obtain ⟨h1, h2⟩ := hgo suffix_rfl
    exact ⟨h1, h2, fun w hw => absurd hw (hword w), fun toks _ => by rw [hpeek, hlead]⟩
  · rename_i hsingle
    split_ifs at h with hgt
    · have hgtpeek : ∀ toks, peek s toks = toks.contains Tok.gt.lead := fun toks => by
        rw [hpeek, hgt]
        rfl
      rcases r with _ | ⟨c', r⟩
      · cases h
        exact ⟨nil_suffix, lt_of_lt_of_le (by simp) hlen, fun w hw => (by cases hw),
          fun toks _ => hgtpeek toks⟩
      · dsimp only at h
        split_ifs at h <;> cases h
        · obtain ⟨h1, h2⟩ := hgo (suffix_cons c' r)
          exact ⟨h1, h2, fun w hw => (by cases hw), fun toks _ => hgtpeek toks⟩
        · obtain ⟨h1, h2⟩ := hgo suffix_rfl
          exact ⟨h1, h2, fun w hw => (by cases hw), fun toks _ => hgtpeek toks⟩
    · have hsymbol := isSymbol_of_single hsingle hgt
      have hspace : isSpace c = false := by
        have hne : s.dropWhile isSpace ≠ [] := by
          rw [← skip, hs]
          exact cons_ne_nil c r
        have hhead : (s.dropWhile isSpace).head hne = c := by
          simp only [show s.dropWhile isSpace = c :: r from hs, head_cons]
        exact hhead ▸ head_dropWhile_not isSpace hne
      have hdrop : (c :: r).dropWhile inWord = r.dropWhile inWord := by
        rw [dropWhile_cons, if_pos (by rw [inWord, hspace, hsymbol]; rfl)]
      cases h
      rw [hdrop]
      obtain ⟨h1, h2⟩ := hgo (r.dropWhile_suffix inWord)
      refine ⟨h1, h2, fun w hw => ?_, fun toks htoks => ?_⟩
      · cases hw
        exact ⟨hsuf, hdrop.symm⟩
      · have hnot : ∀ a, isSymbol a = false → toks.contains a = false := fun a ha => by
          simp only [all_eq_true] at htoks
          simpa using fun hmem => by simpa [ha] using htoks a hmem
        rw [hpeek, hnot c hsymbol]
        exact (hnot 97 (by decide)).symm

/-- What `gettoken` returns until the end. -/
def tokens (s : Ptr) : List Tok :=
  match h : gettoken s with
  | (none, _) => []
  | (some t, s') => t :: tokens s'
termination_by s.length
decreasing_by exact (gettoken_spec h).length

theorem tokens_eq_cons {s s' : Ptr} {t : Tok} (h : gettoken s = (some t, s')) :
    tokens s = t :: tokens s' := by
  rw [tokens]
  split
  · rename_i h'
    cases h.symm.trans h'
  · rename_i h'
    cases h.symm.trans h'
    rfl

theorem tokens_eq_nil {s s' : Ptr} (h : gettoken s = (none, s')) : tokens s = [] := by
  rw [tokens]
  split
  · rfl
  · rename_i h'
    cases h.symm.trans h'

theorem gettoken_of_tokens {s : Ptr} {t : Tok} {ts : List Tok} (h : tokens s = t :: ts) :
    ∃ s', gettoken s = (some t, s') ∧ tokens s' = ts := by
  rcases hs : gettoken s with ⟨_ | t', s'⟩
  · cases (tokens_eq_nil hs).symm.trans h
  · obtain ⟨rfl, rfl⟩ := List.cons.inj ((tokens_eq_cons hs).symm.trans h)
    exact ⟨s', rfl, rfl⟩

theorem skip_of_tokens {s : Ptr} (h : tokens s = []) : skip s = [] ∧ gettoken s = (none, []) := by
  rcases hs : gettoken s with ⟨_ | t, s'⟩
  · rw [gettoken] at hs
    rcases hskip : skip s with _ | ⟨c, r⟩ <;> rw [hskip] at hs
    · exact ⟨rfl, hs.symm⟩
    · dsimp only at hs
      split at hs
      · cases hs
      · split_ifs at hs
        · split at hs
          · cases hs
          · split_ifs at hs <;> cases hs
        · cases hs
  · cases (tokens_eq_cons hs).symm.trans h

@[simp] theorem tokens_skip (s : Ptr) : tokens (skip s) = tokens s := by
  rcases hs : gettoken s with ⟨_ | t, s'⟩
  · rw [tokens_eq_nil hs, tokens_eq_nil ((gettoken_skip s).trans hs)]
  · rw [tokens_eq_cons hs, tokens_eq_cons ((gettoken_skip s).trans hs)]

theorem peek_eq {toks : List UInt8} (htoks : toks.all isSymbol = true) (s : Ptr) :
    peek s toks = (tokens s).head?.any fun t => toks.contains t.lead := by
  rcases hs : tokens s with _ | ⟨t, ts⟩
  · rw [peek, (skip_of_tokens hs).1]
    rfl
  · obtain ⟨s', hs', -⟩ := gettoken_of_tokens hs
    rw [(gettoken_spec hs').peek toks htoks]
    rfl

/-! ## The parser -/

/-- `struct cmd` -/
inductive Cmd where
  | exec (argv : List Word)
  | redir (cmd : Cmd) (file : Word) (mode fd : ℕ)
  | pipe (left right : Cmd)
  | list (left right : Cmd)
  | back (cmd : Cmd)
  deriving DecidableEq

inductive Panic where
  /-- `"syntax"` -/
  | badSyntax
  /-- `"missing file for redirection"` -/
  | missingFile
  | parseblock
  /-- `"syntax - missing )"` -/
  | missingParen
  /-- `"too many args"` -/
  | tooManyArgs
  /-- There is no fuel left. -/
  | fuel
  deriving DecidableEq

def maxargs : ℕ := 10

/-- The `switch` of `parseredirs`. -/
def redircmd (tok : Option Tok) (cmd : Cmd) (file : Word) : Cmd :=
  match tok with
  | some .lt => .redir cmd file 0 0
  | some .gt | some .gtgt => .redir cmd file 0x201 1
  | _ => cmd

def parseredirs : ℕ → Cmd → Ptr → Except Panic (Cmd × Ptr)
  | 0, _, _ => .error .fuel
  | n + 1, cmd, s =>
    if peek s [60, 62] then
      let (tok, s) := gettoken (skip s)
      match gettoken s with
      | (some (.word w), s) => parseredirs n (redircmd tok cmd w) s
      | _ => .error .missingFile
    else .ok (cmd, skip s)

/-- `cmd->argv[argc] = q`, where `cmd` is the innermost command. -/
def Cmd.addArg (w : Word) : Cmd → Cmd
  | .exec argv => .exec (argv ++ [w])
  | .redir cmd file mode fd => .redir (cmd.addArg w) file mode fd
  | cmd => cmd

/-- The loop of `parseexec`. -/
def parseargs : ℕ → ℕ → Cmd → Ptr → Except Panic (Cmd × Ptr)
  | 0, _, _, _ => .error .fuel
  | n + 1, argc, ret, s =>
    if peek s [124, 41, 38, 59] then .ok (ret, skip s)
    else
      match gettoken (skip s) with
      | (none, s) => .ok (ret, s)
      | (some (.word w), s) =>
        if maxargs ≤ argc + 1 then .error .tooManyArgs
        else do
          let (ret, s) ← parseredirs n (ret.addArg w) s
          parseargs n (argc + 1) ret s
      | _ => .error .badSyntax

/-- The loop of `parseline` -/
def parsebacks : ℕ → Cmd → Ptr → Except Panic (Cmd × Ptr)
  | 0, _, _ => .error .fuel
  | n + 1, cmd, s =>
    if peek s [38] then parsebacks n (.back cmd) (gettoken (skip s)).2 else .ok (cmd, skip s)

mutual

def parseline : ℕ → Ptr → Except Panic (Cmd × Ptr)
  | 0, _ => .error .fuel
  | n + 1, s => do
    let (cmd, s) ← parsepipe n s
    let (cmd, s) ← parsebacks n cmd s
    if peek s [59] then do
      let (right, s) ← parseline n (gettoken (skip s)).2
      pure (.list cmd right, s)
    else pure (cmd, skip s)

def parsepipe : ℕ → Ptr → Except Panic (Cmd × Ptr)
  | 0, _ => .error .fuel
  | n + 1, s => do
    let (cmd, s) ← parseexec n s
    if peek s [124] then do
      let (right, s) ← parsepipe n (gettoken (skip s)).2
      pure (.pipe cmd right, s)
    else pure (cmd, skip s)

def parseblock : ℕ → Ptr → Except Panic (Cmd × Ptr)
  | 0, _ => .error .fuel
  | n + 1, s =>
    if peek s [40] then do
      let (cmd, s) ← parseline n (gettoken (skip s)).2
      if peek s [41] then parseredirs n cmd (gettoken (skip s)).2 else .error .missingParen
    else .error .parseblock

def parseexec : ℕ → Ptr → Except Panic (Cmd × Ptr)
  | 0, _ => .error .fuel
  | n + 1, s =>
    if peek s [40] then parseblock n (skip s)
    else do
      let (ret, s) ← parseredirs n (.exec []) (skip s)
      parseargs n 0 ret s

end

/-- The line up to its NUL, which `es` points to. -/
def lineOf (buf : Ptr) : Ptr := buf.takeWhile (· != 0)

/-- `parsecmd`, before `nulterminate`. -/
def parsecmd (buf : Ptr) : Except Panic Cmd := do
  let (cmd, s) ← parseline (4 * (lineOf buf).length + 4) (lineOf buf)
  if skip s = [] then pure cmd else .error .badSyntax

/-! ## The grammar -/

/-- `<`, `>` and `>>`. -/
inductive Op where
  | lt
  | gt
  | gtgt

def Op.tok : Op → Tok
  | .lt => .lt
  | .gt => .gt
  | .gtgt => .gtgt

/-- `redir*` -/
def redirToks (rs : List (Op × Word)) : List Tok := rs.flatMap fun r => [r.1.tok, .word r.2]

/-- The first redirection is the innermost. -/
def Cmd.wrap (cmd : Cmd) (rs : List (Op × Word)) : Cmd := rs.foldl (fun c r => redircmd (some r.1.tok) c r.2) cmd

/-- `(word redir*)*` -/
def argToks (args : List (Word × List (Op × Word))) : List Tok :=
  args.flatMap fun a => .word a.1 :: redirToks a.2

inductive Nonterminal where
  | line
  | pipe
  | exec

def backs (n : ℕ) (cmd : Cmd) : Cmd := Cmd.back^[n] cmd

/-- **The grammar**, with the command of each derivation. -/
inductive Derives : Nonterminal → List Tok → Cmd → Prop where
  | block {u cmd rs} : Derives .line u cmd →
      Derives .exec (.lpar :: u ++ .rpar :: redirToks rs) (cmd.wrap rs)
  | simple {rs args} : args.length < maxargs →
      Derives .exec (redirToks rs ++ argToks args)
        ((Cmd.exec (args.map Prod.fst)).wrap (rs ++ args.flatMap Prod.snd))
  | exec {u cmd} : Derives .exec u cmd → Derives .pipe u cmd
  | bar {u v left right} : Derives .exec u left → Derives .pipe v right →
      Derives .pipe (u ++ .bar :: v) (.pipe left right)
  | last {u cmd} (n : ℕ) : Derives .pipe u cmd → Derives .line (u ++ List.replicate n .amp) (backs n cmd)
  | seq {u v left right} (n : ℕ) : Derives .pipe u left → Derives .line v right →
      Derives .line (u ++ List.replicate n .amp ++ .semi :: v) (.list (backs n left) right)

/-! ## What the parser accepts is derived -/

/-- The parser has come to an end, and if it has accepted something then `P` holds. -/
def Parses (r : Except Panic (Cmd × Ptr)) (P : Cmd → Ptr → Prop) : Prop :=
  match r with
  | .ok x => P x.1 x.2
  | .error e => e ≠ .fuel

section Parses

variable {n : ℕ} {s : Ptr} {cmd : Cmd} {t : Tok} {ts : List Tok}

theorem Parses.bind {r : Except Panic (Cmd × Ptr)} {P Q : Cmd → Ptr → Prop}
    {f : Cmd × Ptr → Except Panic (Cmd × Ptr)} (h : Parses r P) (hf : ∀ c s, P c s → Parses (f (c, s)) Q) :
    Parses (r >>= f) Q := by
  cases r with
  | error e => exact h
  | ok x => exact hf x.1 x.2 h

theorem Parses.mono {r : Except Panic (Cmd × Ptr)} {P Q : Cmd → Ptr → Prop} (h : Parses r P)
    (hPQ : ∀ c s, P c s → Q c s) : Parses r Q := by
  cases r with
  | error e => exact h
  | ok x => exact hPQ x.1 x.2 h

theorem op_of_lead (h : [60, 62].contains t.lead = true) : ∃ o : Op, t = o.tok := by
  cases t with
  | lt => exact ⟨.lt, rfl⟩
  | gt => exact ⟨.gt, rfl⟩
  | gtgt => exact ⟨.gtgt, rfl⟩
  | _ => cases h

theorem wrap_append (cmd : Cmd) (rs rs' : List (Op × Word)) :
    cmd.wrap (rs ++ rs') = (cmd.wrap rs).wrap rs' :=
  foldl_append ..

theorem addArg_wrap (w : Word) (rs : List (Op × Word)) (cmd : Cmd) :
    (cmd.wrap rs).addArg w = (cmd.addArg w).wrap rs := by
  induction rs generalizing cmd with
  | nil => rfl
  | cons r rs ih =>
    obtain ⟨o, f⟩ := r
    cases o <;> exact ih _

/-- The words and the redirections after them. -/
def Cmd.addArgs (cmd : Cmd) (args : List (Word × List (Op × Word))) : Cmd :=
  args.foldl (fun c a => (c.addArg a.1).wrap a.2) cmd

theorem addArgs_wrap (args : List (Word × List (Op × Word))) (ws : List Word) (rs : List (Op × Word)) :
    ((Cmd.exec ws).wrap rs).addArgs args =
      (Cmd.exec (ws ++ args.map Prod.fst)).wrap (rs ++ args.flatMap Prod.snd) := by
  induction args generalizing ws rs with
  | nil => simp [Cmd.addArgs]
  | cons a args ih =>
    have hstep : (((Cmd.exec ws).wrap rs).addArg a.1).wrap a.2 =
        (Cmd.exec (ws ++ [a.1])).wrap (rs ++ a.2) := by
      rw [addArg_wrap, wrap_append]
      rfl
    rw [Cmd.addArgs, foldl_cons, hstep]
    exact (ih _ _).trans (by simp)

theorem parseredirs_spec (hn : (tokens s).length < n) :
    Parses (parseredirs n cmd s) fun c s' => ∃ rs, tokens s = redirToks rs ++ tokens s' ∧ c = cmd.wrap rs := by
  induction n generalizing cmd s with
  | zero => exact absurd hn (Nat.not_lt_zero _)
  | succ n ih =>
    rw [parseredirs, peek_eq (by decide), gettoken_skip]
    split_ifs with hpeek
    · rcases ht : tokens s with _ | ⟨t, ts⟩ <;> rw [ht] at hpeek hn
      · cases hpeek
      obtain ⟨o, rfl⟩ := op_of_lead hpeek
      obtain ⟨s₁, hg, rfl⟩ := gettoken_of_tokens ht
      rw [hg]
      dsimp only
      split
      · rename_i w s₂ hg₂
        have hcons := tokens_eq_cons hg₂
        simp only [hcons, length_cons] at hn
        refine (ih (Nat.lt_of_succ_lt (Nat.lt_of_succ_lt_succ hn))).mono fun c s' hrs => ?_
        obtain ⟨rs, hrs, hc⟩ := hrs
        exact ⟨(o, w) :: rs, by rw [hcons, hrs]; rfl, hc⟩
      · exact fun h => by cases h
    · exact ⟨[], (tokens_skip s).symm, rfl⟩

theorem parseargs_spec {argc : ℕ} (hn : (tokens s).length < n) (hargc : argc < maxargs) :
    Parses (parseargs n argc cmd s) fun c s' =>
      ∃ args, tokens s = argToks args ++ tokens s' ∧ c = cmd.addArgs args ∧ argc + args.length < maxargs := by
  induction n generalizing argc cmd s with
  | zero => exact absurd hn (Nat.not_lt_zero _)
  | succ n ih =>
    rw [parseargs, gettoken_skip]
    by_cases hpeek : peek s [124, 41, 38, 59] = true
    · rw [if_pos hpeek]
      exact ⟨[], (tokens_skip s).symm, rfl, hargc⟩
    rw [if_neg hpeek]
    rcases hg : gettoken s with ⟨_ | t, s₁⟩
    · have hnil := tokens_eq_nil hg
      cases hg.symm.trans (skip_of_tokens hnil).2
      exact ⟨[], hnil.trans (tokens_eq_nil rfl).symm, rfl, hargc⟩
    · have hcons := tokens_eq_cons hg
      rw [hcons, length_cons] at hn
      cases t with
      | word w =>
        dsimp only
        split_ifs with hmax
        · exact fun h => by cases h
        refine (parseredirs_spec (Nat.lt_of_succ_lt_succ hn)).bind fun c s₂ hrs => ?_
        obtain ⟨rs, hrs, rfl⟩ := hrs
        have hle : (tokens s₂).length ≤ (tokens s₁).length := by simp [hrs]
        refine (ih (lt_of_le_of_lt hle (Nat.lt_of_succ_lt_succ hn)) (not_le.mp hmax)).mono
          fun c s' hargs => ?_
        obtain ⟨args, hargs, hc, hlt⟩ := hargs
        refine ⟨(w, rs) :: args, ?_, hc, ?_⟩
        · rw [hcons, hrs, hargs]
          simp [argToks]
        · simp only [length_cons]
          omega
      | _ => exact fun h => by cases h

theorem tokens_of_peek {c : UInt8} (hc : single c = some t) (h : peek s [c] = true) :
    tokens s = t :: tokens (gettoken (skip s)).2 := by
  rw [peek] at h
  rcases hs : skip s with _ | ⟨c', r⟩ <;> rw [hs] at h
  · cases h
  obtain rfl : c' = c := by simpa using h
  have hg : gettoken s = (some t, skip r) := by
    rw [gettoken, hs]
    simp only [hc]
  rw [← hs, gettoken_skip, hg]
  exact tokens_eq_cons hg

theorem parsebacks_spec (hn : (tokens s).length < n) :
    Parses (parsebacks n cmd s) fun c s' =>
      ∃ k, tokens s = List.replicate k .amp ++ tokens s' ∧ c = backs k cmd := by
  induction n generalizing cmd s with
  | zero => exact absurd hn (Nat.not_lt_zero _)
  | succ n ih =>
    rw [parsebacks]
    split_ifs with hpeek
    · have hcons := tokens_of_peek (t := .amp) rfl hpeek
      rw [hcons, length_cons] at hn
      refine (ih (Nat.lt_of_succ_lt_succ hn)).mono fun c s' hk => ?_
      obtain ⟨k, hk, hc⟩ := hk
      exact ⟨k + 1, by rw [hcons, hk]; rfl, hc⟩
    · exact ⟨0, (tokens_skip s).symm, rfl⟩

def Nonterminal.parse : Nonterminal → ℕ → Ptr → Except Panic (Cmd × Ptr)
  | .line => parseline
  | .pipe => parsepipe
  | .exec => parseexec

/-- A function calls one of lower rank at the same token. -/
def Nonterminal.rank : Nonterminal → ℕ
  | .line => 4
  | .pipe => 3
  | .exec => 2

/-- What is consumed from `s` to `s'` is derived. -/
def Consumes (N : Nonterminal) (s : Ptr) (c : Cmd) (s' : Ptr) : Prop :=
  ∃ u, tokens s = u ++ tokens s' ∧ Derives N u c

theorem Consumes.length_le {N : Nonterminal} {s s' : Ptr} {c : Cmd} (h : Consumes N s c s') :
    (tokens s').length ≤ (tokens s).length := by
  obtain ⟨u, hu, -⟩ := h
  simp [hu]

/-- **What a function of the parser accepts is derived**, and it comes to an end. -/
theorem derives_of_parse (N : Nonterminal) (hn : 4 * (tokens s).length + N.rank ≤ n) :
    Parses (N.parse n s) (Consumes N s) := by
  -- every call has less fuel; a block is two calls away from its line
  induction n using Nat.strong_induction_on generalizing N s with
  | _ n ih =>
    rcases n with _ | n
    · cases N <;> exact absurd hn (Nat.not_succ_le_zero _)
    have hlt := Nat.lt_add_one n
    cases N with
    | line =>
      have hpipe : Parses (parsepipe n s) (Consumes .pipe s) := ih n hlt .pipe (Nat.le_of_succ_le_succ hn)
      rw [Nonterminal.rank] at hn
      rw [Nonterminal.parse, parseline]
      refine hpipe.bind fun cmd s₁ h₁ => ?_
      have hlen₁ := h₁.length_le
      refine (parsebacks_spec (by omega)).bind fun c s₂ hk => ?_
      obtain ⟨u, hu, hpipe⟩ := h₁
      obtain ⟨k, hk, rfl⟩ := hk
      dsimp only
      split_ifs with hpeek
      · have hcons := tokens_of_peek (t := .semi) rfl hpeek
        have hlen₂ : (tokens (gettoken (skip s₂)).2).length < (tokens s).length := by
          simp only [hu, hk, hcons, length_append, length_cons]
          omega
        have hline : Parses (parseline n (gettoken (skip s₂)).2) (Consumes .line (gettoken (skip s₂)).2) :=
          ih n hlt .line (by rw [Nonterminal.rank]; omega)
        refine hline.bind fun right s₃ h₃ => ?_
        obtain ⟨v, hv, hright⟩ := h₃
        exact ⟨_, by simp [hu, hk, hcons, hv], .seq k hpipe hright⟩
      · exact ⟨_, by simp [hu, hk], .last k hpipe⟩
    | pipe =>
      have hexec : Parses (parseexec n s) (Consumes .exec s) := ih n hlt .exec (Nat.le_of_succ_le_succ hn)
      rw [Nonterminal.rank] at hn
      rw [Nonterminal.parse, parsepipe]
      refine hexec.bind fun cmd s₁ h₁ => ?_
      obtain ⟨u, hu, hexec⟩ := h₁
      dsimp only
      split_ifs with hpeek
      · have hcons := tokens_of_peek (t := .bar) rfl hpeek
        have hlen : (tokens (gettoken (skip s₁)).2).length < (tokens s).length := by
          simp only [hu, hcons, length_append, length_cons]
          omega
        have hpipe : Parses (parsepipe n (gettoken (skip s₁)).2) (Consumes .pipe (gettoken (skip s₁)).2) :=
          ih n hlt .pipe (by rw [Nonterminal.rank]; omega)
        refine hpipe.bind fun right s₂ h₂ => ?_
        obtain ⟨v, hv, hright⟩ := h₂
        exact ⟨_, by simp [hu, hcons, hv], .bar hexec hright⟩
      · exact ⟨u, by simp [hu], .exec hexec⟩
    | exec =>
      rw [Nonterminal.rank] at hn
      rw [Nonterminal.parse, parseexec]
      split_ifs with hpeek
      · rcases n with _ | n
        · omega
        have hcons := tokens_of_peek (t := .lpar) rfl hpeek
        rw [hcons, length_cons] at hn
        have hline : Parses (parseline n (gettoken (skip s)).2) (Consumes .line (gettoken (skip s)).2) :=
          ih n (by omega) .line (by rw [Nonterminal.rank]; omega)
        rw [parseblock, peek_skip, skip_skip, if_pos hpeek]
        refine hline.bind fun c s₁ h₁ => ?_
        have hlen₁ := h₁.length_le
        obtain ⟨u, hu, hline⟩ := h₁
        dsimp only
        split_ifs with hpeek₁
        · have hcons₁ := tokens_of_peek (t := .rpar) rfl hpeek₁
          rw [hcons₁, length_cons] at hlen₁
          refine (parseredirs_spec (by omega)).mono fun c s₂ hrs => ?_
          obtain ⟨rs, hrs, rfl⟩ := hrs
          exact ⟨_, by simp [hcons, hu, hcons₁, hrs], .block hline⟩
        · exact fun h => by cases h
      · refine (parseredirs_spec (by simp only [tokens_skip]; omega)).bind fun c s₁ hrs => ?_
        obtain ⟨rs, hrs, rfl⟩ := hrs
        rw [tokens_skip] at hrs
        have hle : (tokens s₁).length ≤ (tokens s).length := by simp [hrs]
        refine (parseargs_spec (by omega) (by decide)).mono fun c s' hargs => ?_
        obtain ⟨args, hargs, rfl, hlt⟩ := hargs
        refine ⟨redirToks rs ++ argToks args, by rw [hrs, hargs, append_assoc], ?_⟩
        rw [addArgs_wrap, nil_append]
        exact .simple (by simpa using hlt)

end Parses

/-! ## What is derived is accepted -/

/-- The parser accepts `c` and leaves `rest`. -/
def Accepts (r : Except Panic (Cmd × Ptr)) (c : Cmd) (rest : List Tok) : Prop :=
  ∃ s', r = .ok (c, s') ∧ tokens s' = rest

/-- The tokens that may come after what is derived. -/
def Nonterminal.follow : Nonterminal → Tok → Bool
  | .exec, .bar => true
  | .exec, .amp | .exec, .semi | .pipe, .amp | .pipe, .semi => true
  | _, .rpar => true
  | _, _ => false

def Follows (p : Tok → Bool) (rest : List Tok) : Prop := ∀ t ∈ rest.head?, p t = true

section Accepts

variable {n : ℕ} {s : Ptr} {cmd : Cmd} {t : Tok} {rest : List Tok}

theorem Accepts.bind {r : Except Panic (Cmd × Ptr)} {f : Cmd × Ptr → Except Panic (Cmd × Ptr)} {c c' : Cmd}
    {rest' : List Tok} (h : Accepts r c rest) (hf : ∀ s, tokens s = rest → Accepts (f (c, s)) c' rest') :
    Accepts (r >>= f) c' rest' := by
  obtain ⟨s', rfl, hs'⟩ := h
  exact hf s' hs'

theorem Follows.mono {p q : Tok → Bool} (h : Follows p rest)
    (hpq : ∀ t, p t = true → q t = true := by
      intro t ht
      cases t <;> first | rfl | cases ht) :
    Follows q rest := fun t ht => hpq t (h t ht)

end Accepts

theorem length_tokens_le (s : Ptr) : (tokens s).length ≤ s.length := by
  induction hn : s.length using Nat.strong_induction_on generalizing s with
  | _ n ih =>
    rcases hg : gettoken s with ⟨_ | t, s'⟩
    · simp [tokens_eq_nil hg]
    · have hlt := (gettoken_spec hg).length
      rw [tokens_eq_cons hg, length_cons]
      exact Nat.succ_le_of_lt (lt_of_le_of_lt (ih s'.length (hn ▸ hlt) s' rfl) (hn ▸ hlt))

theorem fuel_parsecmd (line : Ptr) :
    4 * (tokens line).length + Nonterminal.line.rank ≤ 4 * line.length + 4 :=
  Nat.add_le_add_right (Nat.mul_le_mul_left 4 (length_tokens_le line)) 4

theorem derives_of_parsecmd {buf : Ptr} {c : Cmd} (h : parsecmd buf = .ok c) :
    Derives .line (tokens (lineOf buf)) c := by
  have hparse := derives_of_parse .line (fuel_parsecmd (lineOf buf))
  rw [Nonterminal.parse] at hparse
  rw [parsecmd] at h
  rcases hp : parseline (4 * (lineOf buf).length + 4) (lineOf buf) with e | ⟨c', s⟩ <;> rw [hp] at hparse h
  · cases h
  · dsimp only [bind, Except.bind] at h
    split_ifs at h with hskip
    · cases h
      obtain ⟨u, hu, hline⟩ := hparse
      have hend : tokens s = [] := by rw [← tokens_skip, hskip, tokens_eq_nil rfl]
      rw [hu, hend, append_nil]
      exact hline

end Xv6.Shell
