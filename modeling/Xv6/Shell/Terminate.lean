import Xv6.Shell.Parse

/-!
# Cutting the words of a command

The words of a command are kept in the line.  `nulterminate` writes a NUL after each of them, so a cut
falls on a character that ends a word, or on the NUL of the line, and on no character of another word.
-/

namespace Xv6.Shell

open List

/-! ## The cuts -/

/-- The buffer of the line, and where it was written. -/
structure Buffer where
  bytes : List UInt8
  writes : List ℕ

/-- Where the pointer `p` points to in the buffer. -/
def offset (line p : Ptr) : ℕ := line.length - p.length

/-- `*p = 0` -/
def Buffer.cut (line : Ptr) (b : Buffer) (p : Ptr) : Buffer where
  bytes := b.bytes.set (offset line p) 0
  writes := b.writes ++ [offset line p]

def nulterminate (line : Ptr) : Cmd → Buffer → Buffer
  | .exec argv, b => argv.foldl (fun b w => b.cut line w.eq) b
  | .redir cmd file _ _, b => (nulterminate line cmd b).cut line file.eq
  | .pipe left right, b | .list left right, b => nulterminate line right (nulterminate line left b)
  | .back cmd, b => nulterminate line cmd b

/-- `argv[i]` and `file` of every command in the tree. -/
def Cmd.words : Cmd → List Word
  | .exec argv => argv
  | .redir cmd file _ _ => cmd.words ++ [file]
  | .pipe left right | .list left right => left.words ++ right.words
  | .back cmd => cmd.words

/-- What `gettoken` has delimited. -/
def Word.chars (w : Word) : List UInt8 := w.q.take (w.q.length - w.eq.length)

theorem nulterminate_eq_foldl (line : Ptr) (c : Cmd) (b : Buffer) :
    nulterminate line c b = c.words.foldl (fun b w => b.cut line w.eq) b := by
  induction c generalizing b with
  | exec argv => rfl
  | redir cmd file _ _ ih => rw [nulterminate, Cmd.words, foldl_append, ← ih]; rfl
  | pipe left right ihl ihr
  | list left right ihl ihr => rw [nulterminate, Cmd.words, foldl_append, ihl, ihr]
  | back cmd ih => rw [nulterminate, Cmd.words, ih]

theorem writes_foldl_cut (line : Ptr) (ws : List Word) (b : Buffer) :
    (ws.foldl (fun b w => b.cut line w.eq) b).writes = b.writes ++ ws.map fun w => offset line w.eq := by
  induction ws generalizing b with
  | nil => simp
  | cons w ws ih =>
    rw [foldl_cons, ih]
    simp [Buffer.cut]

theorem getElem?_foldl_cut (line : Ptr) (ws : List Word) (b : Buffer) (i : ℕ) :
    (ws.foldl (fun b w => b.cut line w.eq) b).bytes[i]? =
      if ∃ w ∈ ws, offset line w.eq = i then b.bytes[i]?.map fun _ => 0 else b.bytes[i]? := by
  induction ws generalizing b with
  | nil => simp
  | cons w ws ih =>
    rw [foldl_cons, ih]
    by_cases hi : offset line w.eq = i
    · have hcut : (b.cut line w.eq).bytes[i]? = b.bytes[i]?.map fun _ => 0 := by
        rw [Buffer.cut, hi, getElem?_set_self']
        rfl
      rw [hcut, Option.map_map, if_pos (⟨w, mem_cons_self, hi⟩ : ∃ w' ∈ w :: ws, offset line w'.eq = i)]
      split_ifs <;> rfl
    · simp [Buffer.cut, hi]

/-! ## The words are tokens of the line -/

theorem words_wrap (cmd : Cmd) (rs : List (Op × Word)) :
    (cmd.wrap rs).words = cmd.words ++ rs.map Prod.snd := by
  induction rs generalizing cmd with
  | nil => simp [Cmd.wrap]
  | cons r rs ih =>
    obtain ⟨o, f⟩ := r
    have hwords : (redircmd (some o.tok) cmd f).words = cmd.words ++ [f] := by cases o <;> rfl
    exact (ih _).trans (by simp [hwords])

theorem words_backs (n : ℕ) (cmd : Cmd) : (backs n cmd).words = cmd.words := by
  induction n generalizing cmd with
  | zero => rfl
  | succ n ih => exact ih (.back cmd)

theorem mem_redirToks {rs : List (Op × Word)} {w : Word} (h : w ∈ rs.map Prod.snd) :
    .word w ∈ redirToks rs := by
  obtain ⟨r, hr, rfl⟩ := mem_map.mp h
  exact mem_flatMap.mpr ⟨r, hr, by simp⟩

theorem words_of_derives {N : Nonterminal} {u : List Tok} {c : Cmd} (h : Derives N u c) :
    ∀ w ∈ c.words, .word w ∈ u := by
  induction h with
  | @block u cmd rs _ ih =>
    intro w hw
    rw [words_wrap] at hw
    rcases mem_append.mp hw with hw | hw
    · simp [ih w hw]
    · simp [mem_redirToks hw]
  | @simple rs args _ =>
    intro w hw
    rw [words_wrap, map_append] at hw
    simp only [mem_append, Cmd.words] at hw ⊢
    rcases hw with hw | hw | hw
    · obtain ⟨a, ha, rfl⟩ := mem_map.mp hw
      exact .inr (mem_flatMap.mpr ⟨a, ha, by simp⟩)
    · exact .inl (mem_redirToks hw)
    · obtain ⟨r, hr, rfl⟩ := mem_map.mp hw
      obtain ⟨a, ha, hr⟩ := mem_flatMap.mp hr
      exact .inr (mem_flatMap.mpr ⟨a, ha, mem_cons_of_mem _ (mem_redirToks (mem_map_of_mem hr))⟩)
  | exec _ ih => exact ih
  | bar _ _ ihu ihv =>
    intro w hw
    rcases mem_append.mp hw with hw | hw
    · simp [ihu w hw]
    · simp [ihv w hw]
  | last n _ ih =>
    intro w hw
    rw [words_backs] at hw
    simp [ih w hw]
  | seq n _ _ ihu ihv =>
    intro w hw
    rw [Cmd.words, words_backs] at hw
    rcases mem_append.mp hw with hw | hw
    · simp [ihu w hw]
    · simp [ihv w hw]

theorem word_of_mem_tokens {s : Ptr} {w : Word} (h : .word w ∈ tokens s) :
    w.q <:+ s ∧ w.eq = w.q.dropWhile inWord := by
  induction hn : s.length using Nat.strong_induction_on generalizing s with
  | _ n ih =>
    rcases hg : gettoken s with ⟨_ | t, s'⟩
    · rw [tokens_eq_nil hg] at h
      cases h
    · have hlex := gettoken_spec hg
      rw [tokens_eq_cons hg] at h
      rcases mem_cons.mp h with ht | hmem
      · exact hlex.word w ht.symm
      · obtain ⟨hq, heq⟩ := ih s'.length (hn ▸ hlex.length) hmem rfl
        exact ⟨hq.trans hlex.suffix, heq⟩

/-! ## No cut is inside a word -/

section Cuts

variable {line q p : Ptr} {buf : List UInt8}

theorem offset_append (pre p : Ptr) : offset (pre ++ p) p = pre.length := by simp [offset]

/-- **No cut falls inside a word**: `p.dropWhile inWord` is where some word ends. -/
theorem ne_of_inWord {i : ℕ} (hq : q <:+ line) (hp : p <:+ line) (hi : i < (q.takeWhile inWord).length) :
    offset line (p.dropWhile inWord) ≠ offset line q + i := by
  obtain ⟨pre, rfl⟩ := hq
  obtain ⟨pre', hpre'⟩ := (p.dropWhile_suffix inWord).trans hp
  have hoff : offset (pre ++ q) (p.dropWhile inWord) = pre'.length := by rw [← hpre', offset_append]
  rw [hoff, offset_append]
  intro h
  have hchar : (pre ++ q)[pre.length + i]? = some (q.takeWhile inWord)[i] := by
    rw [getElem?_append_right (Nat.le_add_right ..), Nat.add_sub_cancel_left]
    exact prefix_iff_getElem?.mp (q.takeWhile_prefix inWord) i hi
  rw [← h, ← hpre', getElem?_append_right le_rfl, Nat.sub_self, ← head?_eq_getElem?] at hchar
  have hno := head?_dropWhile_not inWord p
  rw [hchar] at hno
  exact Bool.false_ne_true (hno.symm.trans (mem_takeWhile_imp (getElem_mem hi)))

theorem eq_lineOf_append (h : 0 ∈ buf) : ∃ rest, buf = lineOf buf ++ 0 :: rest := by
  have hsplit := takeWhile_append_dropWhile (p := (· != 0)) (l := buf)
  have hno := head?_dropWhile_not (· != 0) buf
  rcases hd : buf.dropWhile (· != 0) with _ | ⟨c, rest⟩ <;> rw [hd] at hno hsplit
  · rw [append_nil] at hsplit
    exact absurd (mem_takeWhile_imp (hsplit.symm ▸ h)) (by simp)
  · obtain rfl : c = 0 := by simpa using hno
    exact ⟨rest, hsplit.symm⟩

theorem chars_eq {w : Word} (h : w.eq = w.q.dropWhile inWord) : w.chars = w.q.takeWhile inWord := by
  have hsplit := takeWhile_append_dropWhile (p := inWord) (l := w.q)
  have hlen := congrArg List.length hsplit
  rw [length_append] at hlen
  rw [Word.chars, h, ← hlen, Nat.add_sub_cancel]
  exact prefix_iff_eq_take.mp (w.q.takeWhile_prefix inWord) |>.symm

/-- The string at `i` is `cs`. -/
def IsString (bytes : List UInt8) (i : ℕ) (cs : List UInt8) : Prop := 0 ∉ cs ∧ cs ++ [0] <+: bytes.drop i

theorem isString_foldl_cut {ws : List Word} {w : Word} {rest : List UInt8} (hline : 0 ∉ line)
    (hws : ∀ w ∈ ws, w.q <:+ line ∧ w.eq = w.q.dropWhile inWord) (hw : w ∈ ws) :
    IsString (ws.foldl (fun (b : Buffer) w => b.cut line w.eq) ⟨line ++ 0 :: rest, []⟩).bytes
      (offset line w.q) w.chars := by
  obtain ⟨hq, heq⟩ := hws w hw
  rw [chars_eq heq]
  have hpre := w.q.takeWhile_prefix inWord
  refine ⟨fun h0 => hline (hq.subset (hpre.subset h0)), prefix_iff_getElem?.mpr fun i hi => ?_⟩
  have hat : (line ++ 0 :: rest)[offset line w.q + i]? = (w.q ++ 0 :: rest)[i]? := by
    obtain ⟨pre, rfl⟩ := hq
    rw [offset_append, append_assoc, getElem?_append_right (Nat.le_add_right ..),
      Nat.add_sub_cancel_left]
  rw [getElem?_drop, getElem?_foldl_cut, hat]
  rcases Nat.lt_or_ge i (w.q.takeWhile inWord).length with hlt | hge
  · have hno : ¬∃ w' ∈ ws, offset line w'.eq = offset line w.q + i := fun h => by
      obtain ⟨w', hw', h⟩ := h
      obtain ⟨hq', heq'⟩ := hws w' hw'
      exact ne_of_inWord hq hq' hlt (heq' ▸ h)
    rw [if_neg hno, getElem_append_left hlt]
    exact prefix_iff_getElem?.mp (hpre.trans (prefix_append ..)) i hlt
  -- the character after the word is the one that was cut
  · obtain rfl : i = (w.q.takeWhile inWord).length := by
      rw [length_append, length_singleton] at hi
      omega
    have hcut : offset line w.eq = offset line w.q + (w.q.takeWhile inWord).length := by
      have hlen := congrArg List.length (takeWhile_append_dropWhile (p := inWord) (l := w.q))
      have hle := hq.length_le
      rw [length_append] at hlen
      rw [offset, offset, heq]
      omega
    have hin : (w.q.takeWhile inWord).length < (w.q ++ 0 :: rest).length := by
      rw [length_append, length_cons]
      exact lt_of_le_of_lt hpre.length_le (by omega)
    rw [if_pos ⟨w, hw, hcut⟩, getElem?_eq_getElem hin, getElem_concat_length rfl]
    rfl

end Cuts

/-- **Every word is kept.**  After `nulterminate` each word of the command is a string in the buffer, of
the characters that `gettoken` has delimited; only the line and its NUL were written. -/
theorem nulterminate_words {buf : Ptr} {c : Cmd} (hnul : 0 ∈ buf) (h : parsecmd buf = .ok c) :
    (∀ w ∈ c.words, IsString (nulterminate (lineOf buf) c ⟨buf, []⟩).bytes (offset (lineOf buf) w.q) w.chars) ∧
      ∀ i ∈ (nulterminate (lineOf buf) c ⟨buf, []⟩).writes, i ≤ (lineOf buf).length := by
  have hwords : ∀ w ∈ c.words, w.q <:+ lineOf buf ∧ w.eq = w.q.dropWhile inWord := fun w hw =>
    word_of_mem_tokens (words_of_derives (derives_of_parsecmd h) w hw)
  have hline : 0 ∉ lineOf buf := fun h0 => absurd (mem_takeWhile_imp h0) (by decide)
  obtain ⟨rest, hbuf⟩ := eq_lineOf_append hnul
  rw [nulterminate_eq_foldl]
  constructor
  · intro w hw
    have hstring := @isString_foldl_cut (lineOf buf) c.words w rest hline hwords hw
    rwa [← hbuf] at hstring
  · intro i hi
    rw [writes_foldl_cut, nil_append] at hi
    obtain ⟨w, -, rfl⟩ := mem_map.mp hi
    exact Nat.sub_le ..

/-- `ls>x` -/
theorem nulterminate_words_ls :
    ∃ c, parsecmd [108, 115, 62, 120, 10, 0] = .ok c ∧ ∀ w ∈ c.words,
      IsString (nulterminate [108, 115, 62, 120, 10] c ⟨[108, 115, 62, 120, 10, 0], []⟩).bytes
        (offset [108, 115, 62, 120, 10] w.q) w.chars :=
  ⟨.redir (.exec [⟨[108, 115, 62, 120, 10], [62, 120, 10]⟩]) ⟨[120, 10], [10]⟩ 0x201 1, by decide,
    (nulterminate_words (by decide) (by decide)).1⟩

end Xv6.Shell
