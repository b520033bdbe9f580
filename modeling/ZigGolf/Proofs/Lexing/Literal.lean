import ZigGolf.Proofs.Lexing.Start

/-!
# The grammar of literals between quotes

A string is a text between double quotes, a quoted identifier is the sigil and a string, and a
character literal is one character or escape between single quotes.  A token that is started at one
of these quotes, or at the sigil with a quote behind it, is what the grammar says: if the text there
starts with a literal then that is the token, and else the token is invalid (`lex_literal`).

At most one literal stands at the front of a text, so nothing is said about the longest one.
-/

namespace ZigGolf

variable {c r s source : Bytes} {l : Lexeme} {n : Nat}

/-! ### The grammar -/

/-- The text of a string between double quotes. -/
def IsStringLiteral (t : Bytes) : Prop := ∃ body, IsStringText body ∧ t = quote :: (body ++ [quote])

/-- The sigil and a string. -/
def IsQuotedIdentifier (t : Bytes) : Prop :=
  ∃ literal, IsStringLiteral literal ∧ t = atSign :: literal

/-- The text of a character between single quotes. -/
def IsCharLiteral (t : Bytes) : Prop :=
  ∃ body, IsCharText body ∧ t = apostrophe :: (body ++ [apostrophe])

/-- The token `t`, started at the text `c`, is decided by a form: it is a token of the kind `k` with
the lexeme `u` exactly if `u` is of the form and stands at the front of the text, and it is invalid
if no such `u` stands there. -/
structure IsDecidedBy (form : Bytes → Prop) (k : Kind) (c : Bytes) (t : Token) : Prop where
  lexeme_iff : ∀ u, t.kind = k ∧ t.lexeme = u ↔ u <+: c ∧ form u
  kind_eq_invalid : (∀ u, u <+: c → ¬ form u) → t.kind = .invalid

/-- A form decides the token if its texts are tokens of the kind and every valid lexeme found at the
text is of the form. -/
lemma exists_isDecidedBy (file : UInt32) (hs : Utf8.WellFormed source)
    (hc : tokenStart source n = c) (hne : c ≠ []) {form : Bytes → Prop} {k : Kind}
    (hk : k ≠ .invalid) (hreads : ∀ u r, form u → Reads k u r)
    (hform : ∀ l r, nextLexeme? c = some (l, r) → l.kind ≠ .invalid →
      l.text ++ r = c ∧ form l.text) :
    ∃ t, (lex file source)[n]? = some t ∧ IsDecidedBy form k c t := by
  obtain ⟨t, l, r, ht, hnext, hkind, htext⟩ := exists_token_of_tokenStart file hs hc hne
  refine ⟨t, ht, fun u => ?_, fun hnone => ?_⟩
  · rw [hkind, htext]
    constructor
    · rintro ⟨rfl, rfl⟩
      obtain ⟨hsplit, hu⟩ := hform l r hnext hk
      exact ⟨⟨r, hsplit⟩, hu⟩
    · rintro ⟨⟨r', rfl⟩, hu⟩
      rw [(hreads u r' hu).nextLexeme?_eq] at hnext
      obtain ⟨rfl, -⟩ := Prod.mk.inj (Option.some.inj hnext)
      exact ⟨rfl, rfl⟩
  · by_contra hvalid
    rw [hkind] at hvalid
    obtain ⟨hsplit, hu⟩ := hform l r hnext hvalid
    exact hnone l.text ⟨r, hsplit⟩ hu

/-! ### The literals -/

/-- A valid lexeme at a double quote is a string. -/
lemma isStringLiteral_of_nextLexeme? (h : nextLexeme? (quote :: s) = some (l, r))
    (hk : l.kind ≠ .invalid) : l.text ++ r = quote :: s ∧ IsStringLiteral l.text := by
  rw [nextLexeme?_quote] at h
  obtain ⟨rfl, rfl⟩ := Prod.mk.inj (Option.some.inj h)
  refine ⟨cutString_append _, ?_⟩
  obtain ⟨-, body, hbody, -, htext⟩ := (cutString_eq_iff hk).1 rfl
  exact ⟨body, isStringBody_iff_isStringText.1 hbody, htext⟩

/-- A valid lexeme at the sigil and a double quote is a quoted identifier. -/
lemma isQuotedIdentifier_of_nextLexeme? (h : nextLexeme? (atSign :: quote :: s) = some (l, r))
    (hk : l.kind ≠ .invalid) :
    l.text ++ r = atSign :: quote :: s ∧ IsQuotedIdentifier l.text := by
  rw [nextLexeme?_atSign, Option.some.injEq, cutAfterSigil, if_pos (by simp)] at h
  split at h
  · obtain ⟨rfl, -⟩ := Prod.mk.inj h
    simp at hk
  · next k text rest hkind hcut =>
    obtain ⟨rfl, rfl⟩ := Prod.mk.inj h
    obtain ⟨-, body, hbody, rfl, rfl⟩ := (cutString_eq_iff (by simpa using hkind)).1 hcut
    refine ⟨by simp, _, ⟨body, isStringBody_iff_isStringText.1 hbody, rfl⟩, rfl⟩

/-- In UTF-8 text a valid lexeme at a single quote is a character literal. -/
lemma isCharLiteral_of_nextLexeme? (hs : Utf8.WellFormed (apostrophe :: s))
    (h : nextLexeme? (apostrophe :: s) = some (l, r)) (hk : l.kind ≠ .invalid) :
    l.text ++ r = apostrophe :: s ∧ IsCharLiteral l.text := by
  rw [nextLexeme?_apostrophe] at h
  obtain ⟨rfl, rfl⟩ := Prod.mk.inj (Option.some.inj h)
  refine ⟨cutChar_append _, ?_⟩
  obtain ⟨-, body, hbody, hsplit, htext⟩ := (cutChar_eq_iff hk).1 rfl
  have hutf8 : Utf8.WellFormed (body ++ [apostrophe]) := by
    have hrest := ((Utf8.wellFormed_append_cons_iff (a := []) (by decide)).1 hs).2
    rw [hsplit, Utf8.wellFormed_append_cons_iff (by decide)] at hrest
    exact (Utf8.wellFormed_append_cons_iff (by decide)).2 ⟨hrest.1, Utf8.wellFormed_nil⟩
  exact ⟨body, (isCharBody_iff_isCharText hutf8).1 hbody, htext⟩

/-! ### Result -/

/-- Tokens that are started at quotes, in a source in UTF-8.  At a double quote the token is decided
by the grammar of strings, at the sigil and a double quote by that of quoted identifiers, and at a
single quote by that of character literals. -/
theorem lex_literal (file : UInt32) {source : Bytes} (hs : Utf8.IsEncoding source) (n : Nat) :
    (∀ rest, tokenStart source n = quote :: rest →
      ∃ t, (lex file source)[n]? = some t ∧
        IsDecidedBy IsStringLiteral .stringLit (quote :: rest) t) ∧
    (∀ rest, tokenStart source n = atSign :: quote :: rest →
      ∃ t, (lex file source)[n]? = some t ∧
        IsDecidedBy IsQuotedIdentifier .ident (atSign :: quote :: rest) t) ∧
    ∀ rest, tokenStart source n = apostrophe :: rest →
      ∃ t, (lex file source)[n]? = some t ∧
        IsDecidedBy IsCharLiteral .charLit (apostrophe :: rest) t := by
  rw [Utf8.isEncoding_iff] at hs
  refine ⟨fun rest hstart => ?_, fun rest hstart => ?_, fun rest hstart => ?_⟩
  · refine exists_isDecidedBy file hs hstart (by simp) (by simp) ?_
      fun l r => isStringLiteral_of_nextLexeme?
    rintro u r ⟨body, hbody, rfl⟩
    exact .string (isStringBody_iff_isStringText.2 hbody)
  · refine exists_isDecidedBy file hs hstart (by simp) (by simp) ?_
      fun l r => isQuotedIdentifier_of_nextLexeme?
    rintro u r ⟨literal, ⟨body, hbody, rfl⟩, rfl⟩
    exact .quotedName (isStringBody_iff_isStringText.2 hbody)
  · have hutf8 := wellFormed_tokenStart hs n
    rw [hstart] at hutf8
    refine exists_isDecidedBy file hs hstart (by simp) (by simp) ?_
      fun l r => isCharLiteral_of_nextLexeme? hutf8
    rintro u r ⟨body, hbody, rfl⟩
    exact .char (hbody.charBodyLength?_append [apostrophe])

/-- A quoted identifier with an escaped quote, a character literal with the last scalar value, and a
string that is not closed. -/
theorem lex_literal_of_escapes :
    let source := ascii "@\"\\\"\" '\\u\x7b10FFFF\x7d' \""
    (∃ t, (lex 0 source)[0]? = some t ∧ t.kind = .ident ∧ t.lexeme = ascii "@\"\\\"\"") ∧
    (∃ t, (lex 0 source)[1]? = some t ∧ t.kind = .charLit ∧
      t.lexeme = ascii "'\\u\x7b10FFFF\x7d'") ∧
    ∃ t, (lex 0 source)[2]? = some t ∧ t.kind = .invalid := by
  intro source
  have hencoding : Utf8.IsEncoding source :=
    ⟨"@\"\\\"\" '\\u\x7b10FFFF\x7d' \"".toList, by decide⟩
  refine ⟨?_, ?_, ?_⟩
  · obtain ⟨t, ht, hdecided⟩ := (lex_literal 0 hencoding 0).2.1
      (ascii "\\\"\" '\\u\x7b10FFFF\x7d' \"") (by decide +kernel)
    have hname : IsQuotedIdentifier (ascii "@\"\\\"\"") :=
      ⟨_, ⟨_, .escape (.simple (b := quote) (by decide)) .nil, rfl⟩, rfl⟩
    exact ⟨t, ht, (hdecided.lexeme_iff _).2 ⟨by decide, hname⟩⟩
  · obtain ⟨t, ht, hdecided⟩ := (lex_literal 0 hencoding 1).2.2
      (ascii "\\u\x7b10FFFF\x7d' \"") (by decide +kernel)
    have hchar : IsCharLiteral (ascii "'\\u\x7b10FFFF\x7d'") :=
      ⟨_, .escape (@IsEscape.codePoint (ascii "10FFFF") (by decide +kernel) (by decide) (by decide)
        (by decide +kernel)), rfl⟩
    exact ⟨t, ht, (hdecided.lexeme_iff _).2 ⟨by decide, hchar⟩⟩
  · obtain ⟨t, ht, hdecided⟩ := (lex_literal 0 hencoding 2).1 [] (by decide +kernel)
    refine ⟨t, ht, hdecided.kind_eq_invalid ?_⟩
    rintro u hu ⟨body, -, rfl⟩
    simpa using hu.length_le

end ZigGolf
