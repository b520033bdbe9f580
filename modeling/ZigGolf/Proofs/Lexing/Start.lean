import ZigGolf.Proofs.Lexing.Fault
import ZigGolf.Proofs.Lexing.Tiling

/-!
# Where tokens are started

The lexer passes over a gap and then starts a token at what is left of the text.  `tokenStart` is
the text at which it starts the token with a given number.  In UTF-8 text that text is UTF-8 too,
and the token is the first lexeme of it (`exists_token_of_tokenStart`).  So a question about the
tokens that start with certain bytes is a question about the first lexeme of a text.
-/

namespace ZigGolf

variable {source s c : Bytes} {n : Nat}

/-- What is left of a text when its first `n` lexemes are cut off. -/
def remainder (s : Bytes) : Nat → Bytes
  | 0 => s
  | n + 1 => remainder ((nextLexeme? s).elim [] (·.2)) n

/-- The text at which the lexer starts the token with number `n`, counted from zero: what is left
behind the tokens before it and the gap.  If there are not so many tokens it is empty. -/
def tokenStart (s : Bytes) (n : Nat) : Bytes := (splitGap (remainder s n)).2

/-- A lexeme is the first one of what the lexemes before it leave. -/
lemma getElem?_lexemes (s : Bytes) (n : Nat) :
    (lexemes s)[n]? = (nextLexeme? (remainder s n)).map (·.1) := by
  induction n generalizing s with
  | zero =>
    cases hnext : nextLexeme? s with
    | none => simp [lexemes_of_none hnext, remainder, hnext]
    | some p => simp [lexemes_of_some hnext, remainder, hnext]
  | succ n ih =>
    rw [remainder, ← ih]
    cases hnext : nextLexeme? s with
    | none => simp [lexemes_of_none hnext]
    | some p => simp [lexemes_of_some hnext]

/-- What is left of UTF-8 text is UTF-8 text. -/
lemma wellFormed_remainder (hs : Utf8.WellFormed s) (n : Nat) :
    Utf8.WellFormed (remainder s n) := by
  induction n generalizing s with
  | zero => exact hs
  | succ n ih =>
    apply ih
    cases hnext : nextLexeme? s with
    | none => exact Utf8.wellFormed_nil
    | some p => exact (wellFormed_of_nextLexeme?_eq_some hnext hs).2

/-- What is left of a text is its end. -/
lemma remainder_suffix (s : Bytes) (n : Nat) : remainder s n <:+ s := by
  induction n generalizing s with
  | zero => exact List.suffix_rfl
  | succ n ih =>
    refine (ih _).trans ?_
    cases hnext : nextLexeme? s with
    | none => exact List.nil_suffix
    | some p => exact ⟨_, nextLexeme?_append hnext⟩

/-- A token of UTF-8 text is the first lexeme of some end of the text that is UTF-8 text. -/
lemma exists_nextLexeme?_of_mem_tokensOfText {file : UInt32} {t : Token} (hs : Utf8.WellFormed s)
    (ht : t ∈ tokensOfText file s) :
    ∃ s' l r, s' <:+ s ∧ Utf8.WellFormed s' ∧ nextLexeme? s' = some (l, r) ∧
      l.kind = t.kind ∧ l.text = t.lexeme := by
  have hmem := List.mem_map_of_mem (f := fun t : Token => (t.kind, t.lexeme)) ht
  rw [map_tokensOfText] at hmem
  obtain ⟨l, hl, heq⟩ := List.mem_map.1 hmem
  obtain ⟨hkind, htext⟩ := Prod.mk.inj heq
  obtain ⟨n, hn⟩ := List.mem_iff_getElem?.1 hl
  rw [getElem?_lexemes] at hn
  obtain ⟨⟨l', r⟩, hnext, rfl⟩ := Option.map_eq_some_iff.1 hn
  exact ⟨remainder s n, l', r, remainder_suffix s n, wellFormed_remainder hs n, hnext, hkind, htext⟩

lemma wellFormed_tokenStart (hs : Utf8.WellFormed s) (n : Nat) :
    Utf8.WellFormed (tokenStart s n) :=
  wellFormed_splitGap (wellFormed_remainder hs n)

/-- Where a token is started, the lexeme that is found is the first one of the text there. -/
lemma exists_nextLexeme?_tokenStart (hc : tokenStart s n = c) (hne : c ≠ []) :
    ∃ l r, nextLexeme? c = some (l, r) ∧
      (lexemes s)[n]?.map (fun l => (l.kind, l.text)) = some (l.kind, l.text) := by
  obtain ⟨b, rest, rfl⟩ := List.exists_cons_of_ne_nil hne
  have hgap : gapItem? (b :: rest) = none := by
    rw [← hc]
    exact gapItem?_splitGap _
  refine ⟨(cutToken b rest).1, (cutToken b rest).2, nextLexeme?_of_none hgap, ?_⟩
  rw [getElem?_lexemes, nextLexeme?]
  rcases hsplit : splitGap (remainder s n) with ⟨gap, left⟩
  rw [tokenStart, hsplit] at hc
  obtain rfl : left = b :: rest := hc
  rfl

/-- Where a token is started in UTF-8 text, the token has the kind and the bytes of the first
lexeme of the text there. -/
lemma exists_token_of_tokenStart (file : UInt32) (hs : Utf8.WellFormed source)
    (hc : tokenStart source n = c) (hne : c ≠ []) :
    ∃ t l r, (lex file source)[n]? = some t ∧ nextLexeme? c = some (l, r) ∧
      t.kind = l.kind ∧ t.lexeme = l.text := by
  obtain ⟨l, r, hnext, hlexeme⟩ := exists_nextLexeme?_tokenStart hc hne
  have htokens := congrArg (·[n]?) (map_tokensOfText file source)
  rw [List.getElem?_map, List.getElem?_map, hlexeme] at htokens
  obtain ⟨t, ht, heq⟩ := Option.map_eq_some_iff.1 htokens
  obtain ⟨hkind, htext⟩ := Prod.mk.inj heq
  refine ⟨t, l, r, ?_, hnext, hkind, htext⟩
  rw [lex_of_wellFormed hs, List.getElem?_append_left (List.getElem?_eq_some_iff.1 ht).1, ht]

end ZigGolf
