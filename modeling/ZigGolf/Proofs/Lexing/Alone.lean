import ZigGolf.Proofs.Lexing.Line
import ZigGolf.Proofs.Lexing.Malformed
import ZigGolf.Proofs.Lexing.Start

/-!
# Tokens by themselves

Where a token ends is decided by its own bytes and by a look at what stands behind it, and for that
look the end of the text is as good as what stood there.  For valid tokens the grammar says so
(`Reads.alone`).  Invalid tokens are not in the grammar, so each way of cutting one off is looked at
here: what it cuts off is one invalid token by itself (`IsFault`).

So a token is known from its bytes: lexed by themselves they are that token and nothing else
(`lex_lexeme`).
-/

namespace ZigGolf

variable {s t r : Bytes} {b : UInt8} {l : Lexeme}

/-- The texts that are one invalid token by themselves. -/
def IsFault (t : Bytes) : Prop := nextLexeme? t = some (⟨[], .invalid, t⟩, [])

/-! ### Numerals and literals -/

/-- A cut that leaves just the text put behind leaves nothing by itself. -/
lemma eq_of_followCut_eq {cut : Kind × Bytes × Bytes} {k : Kind} (h : followCut cut r = (k, t, r)) :
    cut = (k, t, []) := by
  obtain ⟨k', t', r'⟩ := cut
  obtain ⟨rfl, rfl, hr⟩ : k' = k ∧ t' = t ∧ r' ++ r = r := by simpa [followCut] using h
  rw [List.append_left_eq_self.1 hr]

/-- An invalid numeral takes all letters and digits that follow, and is read no further. -/
lemma isFault_of_cutNumber (hb : isDigit b = true) (h : cutNumber (b :: s) = (.invalid, t, r)) :
    IsFault t := by
  have happend := cutNumber_append (b :: s)
  have hne := cutNumber_ne_nil hb s
  rw [h] at happend hne
  dsimp only at happend hne
  obtain ⟨hstop, hle⟩ : r.head?.any isNamePart = false ∧
      (Numeral.read (t ++ r)).text.length ≤ t.length := by
    rw [happend]
    unfold cutNumber at h
    dsimp only at h
    split at h
    · split at h <;> simp at h
    · obtain ⟨rfl, rfl⟩ := (Prod.mk.inj h).2
      exact ⟨head?_dropWhile_any _, by simp⟩
  -- so no part of the numeral was read for the sake of what stands behind
  have hread := (Numeral.read_append_of_length_le hne hstop hle).1
  have hcut := cutNumber_append_of_read hstop hread
  rw [happend, h] at hcut
  obtain ⟨c, t, rfl⟩ := List.exists_cons_of_ne_nil hne
  obtain rfl : c = b := (List.cons.inj happend).1
  rw [IsFault, nextLexeme?_digit hb, eq_of_followCut_eq hcut.symm]
  rfl

/-- A string that is closed is cut off behind its closing quote. -/
lemma cutString_of_closingQuote? {body : Bytes} {n : Nat}
    (h : closingQuote? 0 (body ++ quote :: r) = some n) (hn : n = body.length) :
    cutString (quote :: (body ++ quote :: r)) =
      (if wellEscaped body then .stringLit else .invalid, quote :: (body ++ [quote]), r) := by
  rw [cutString, List.tail_cons, h, hn]
  simp [List.take_length_add_append]

/-- An invalid string is closed, or ends with its line. -/
lemma isFault_of_cutString (h : cutString (quote :: s) = (.invalid, t, r)) : IsFault t := by
  suffices hcut : (∃ u, t = quote :: u) ∧ cutString t = (.invalid, t, []) by
    obtain ⟨⟨u, rfl⟩, hcut⟩ := hcut
    rw [IsFault, nextLexeme?_quote, hcut]
    rfl
  cases hclose : closingQuote? 0 s with
  | some n =>
    obtain ⟨body, rest, rfl, hn, -, hr⟩ := exists_of_closingQuote? hclose
    rw [Nat.zero_add] at hn
    rw [cutString_of_closingQuote? hclose hn] at h
    obtain ⟨hk, rfl, rfl⟩ : _ ∧ _ ∧ _ := by simpa only [Prod.mk.injEq] using h
    have halone := cutString_of_closingQuote? (hr []) hn
    rw [hk] at halone
    exact ⟨⟨_, rfl⟩, halone⟩
  | none =>
    have hcut := h
    rw [cutString, List.tail_cons, hclose] at hcut
    obtain ⟨-, rfl, rfl⟩ : _ ∧ _ ∧ _ := by simpa only [Prod.mk.injEq] using hcut
    refine ⟨⟨firstLine s, rfl⟩, ?_⟩
    -- behind the line stands nothing or a line feed, and no string is closed behind either
    have happend := firstLine_append_afterFirstLine (quote :: s)
    cases hrest : afterFirstLine (quote :: s) with
    | nil =>
      rw [hrest] at happend h
      rw [List.append_nil] at happend
      rwa [happend] at h ⊢
    | cons c rest =>
      obtain rfl := eq_lineFeed_of_mem_head?_afterFirstLine (quote :: s) c (by rw [hrest]; rfl)
      have hfeed := cutString_append_lineFeed rest quote (firstLine s)
      rw [hrest] at happend h
      have hline : quote :: firstLine s = firstLine (quote :: s) := rfl
      rw [hline, happend, h] at hfeed
      exact eq_of_followCut_eq hfeed.symm

/-- A character literal stays one with more text behind it. -/
lemma charLength?_append {n : Nat} (h : charLength? s = some n) (r : Bytes) :
    charLength? (s ++ r) = some n := by
  obtain ⟨body, rest, rfl, rfl, hr⟩ := exists_of_charLength? h
  rw [List.append_assoc, List.cons_append, charLength?, hr]
  simp

/-- The search for a closing quote stops at the end of what it has gone through. -/
lemma charFaultLength_take (s : Bytes) :
    charFaultLength (s.take (charFaultLength s)) = charFaultLength s := by
  obtain ⟨t, r, h, rfl⟩ := exists_isCharFault s
  rw [h.charFaultLength_eq]
  split
  · next hquote =>
    obtain ⟨r, rfl⟩ := List.head?_eq_some_iff.1 hquote
    have halone : IsCharFault t [apostrophe] := h.congr (by simp) fun _ => rfl
    have htake : (t ++ apostrophe :: r).take (t.length + 1) = t ++ [apostrophe] :=
      List.take_length_add_append 1
    rw [htake, halone.charFaultLength_eq]
    rfl
  · have halone : IsCharFault t [] := h.congr (by simp) (by simp)
    have hlength := halone.charFaultLength_eq
    rw [List.append_nil] at hlength
    rw [Nat.add_zero, List.take_left, hlength]
    rfl

/-- An invalid character literal ends with a quote or with its line. -/
lemma isFault_of_cutChar (h : cutChar (apostrophe :: s) = (.invalid, t, r)) : IsFault t := by
  unfold cutChar at h
  rw [List.tail_cons] at h
  split at h
  · simp at h
  · next hnone =>
    obtain ⟨rfl, -⟩ := (Prod.mk.inj h).2
    -- a literal within what is cut off would have been found
    have hnone' : charLength? (s.take (charFaultLength s)) = none := by
      rw [Option.eq_none_iff_forall_ne_some]
      intro n hn
      have happend := charLength?_append hn (s.drop (charFaultLength s))
      rw [List.take_append_drop, hnone] at happend
      exact absurd happend (by simp)
    rw [List.take_succ_cons, IsFault, nextLexeme?_apostrophe, cutChar, List.tail_cons, hnone']
    simp [charFaultLength_take, List.take_take, Lexeme.ofCut]

/-! ### Sigils and stray code points -/

/-- Of an invalid quoted identifier the string is the token; a sigil that introduces nothing is one
by itself. -/
lemma isFault_of_cutAfterSigil (h : cutAfterSigil s = (l, r)) (hk : l.kind = .invalid) :
    IsFault l.text := by
  unfold cutAfterSigil at h
  split at h
  · next hquote =>
    obtain ⟨s, rfl⟩ := List.head?_eq_some_iff.1 hquote
    split at h
    · next hcut =>
      obtain ⟨rfl, -⟩ := Prod.mk.inj h
      exact isFault_of_cutString hcut
    · obtain ⟨rfl, -⟩ := Prod.mk.inj h
      simp at hk
  · split at h
    · obtain ⟨rfl, -⟩ := Prod.mk.inj h
      simp at hk
    · obtain ⟨rfl, -⟩ := Prod.mk.inj h
      exact nextLexeme?_atSign

/-- Where no punctuation stands none stands in a part at the front. -/
lemma longest?_eq_none_of_front (h : Punctuation.longest? s = none) (ht : t <+: s) :
    Punctuation.longest? t = none := by
  rw [Punctuation.longest?, List.find?_eq_none] at h ⊢
  intro p hp hfront
  rw [List.isPrefixOf_iff_prefix] at hfront
  exact h p hp (List.isPrefixOf_iff_prefix.2 (hfront.trans ht))

/-- A code point at which no punctuation stands is invalid as a whole. -/
lemma cutPunctuation_of_isSequence {u : Bytes} (hu : Utf8.IsSequence (b :: u))
    (h : Punctuation.longest? (b :: (u ++ r)) = none) :
    cutPunctuation b (u ++ r) = (.invalid, b :: u, r) := by
  rw [cutPunctuation, h]
  dsimp only
  rw [← hu.length_eq, ← List.cons_append, List.take_left, List.drop_left]

/-- A code point that starts no token starts none by itself.  What its first byte leads to is told
by two tests that look behind that byte, and these fail with less text behind it, too. -/
lemma isFault_of_isSequence {u : Bytes} (hu : Utf8.IsSequence (b :: u))
    (htoken : ∀ s, ¬ startsComment (b :: s) = true →
      ¬ (b == backslash && s.head? == some backslash) = true →
        cutToken b s = Lexeme.ofCut (cutPunctuation b s))
    (hgap : gapItem? (b :: (u ++ r)) = none) (hcomment : ¬ startsComment (b :: (u ++ r)) = true)
    (hback : ¬ (b == backslash && (u ++ r).head? == some backslash) = true)
    (hnone : Punctuation.longest? (b :: (u ++ r)) = none) : IsFault (b :: u) := by
  obtain ⟨hcomment, hback⟩ : ¬ startsComment (b :: u) = true ∧
      ¬ (b == backslash && u.head? == some backslash) = true := by
    cases u with
    | nil => exact ⟨by simp [startsComment], by simp⟩
    | cons c u => exact ⟨hcomment, hback⟩
  have hblank : isBlank b = false := by
    by_contra hblank
    rw [gapItem?_blank (by simpa using hblank)] at hgap
    simp at hgap
  have hgap := gapItem?_of_not_startsComment hblank (by simpa using hcomment)
  have hcut := cutPunctuation_of_isSequence (r := []) hu
    (longest?_eq_none_of_front hnone ⟨r, by simp⟩)
  rw [List.append_nil] at hcut
  rw [IsFault, nextLexeme?_of_none hgap, htoken u hcomment hback, hcut]
  rfl

/-! ### Any token -/

/-- An invalid token is one by itself. -/
lemma isFault_of_cutToken (hs : Utf8.WellFormed (b :: s)) (hgap : gapItem? (b :: s) = none)
    (h : cutToken b s = (l, r)) (hk : l.kind = .invalid) : IsFault l.text := by
  unfold cutToken at h
  split at h
  · obtain ⟨rfl, -⟩ := Prod.mk.inj h
    dsimp only [cutDocComment] at hk
    split at hk <;> simp at hk
  next hcomment =>
  split at h
  · next hdigit =>
    obtain ⟨rfl, rfl⟩ := Prod.mk.inj h
    exact isFault_of_cutNumber hdigit (Prod.ext hk rfl)
  next hdigit =>
  split at h
  · next hquote =>
    obtain rfl : b = quote := by simpa using hquote
    obtain ⟨rfl, rfl⟩ := Prod.mk.inj h
    exact isFault_of_cutString (Prod.ext hk rfl)
  next hquote =>
  split at h
  · next hquote =>
    obtain rfl : b = apostrophe := by simpa using hquote
    obtain ⟨rfl, rfl⟩ := Prod.mk.inj h
    exact isFault_of_cutChar (Prod.ext hk rfl)
  next hapostrophe =>
  split at h
  · obtain ⟨rfl, -⟩ := Prod.mk.inj h
    simp [cutMultilineStringLine] at hk
  next hback =>
  split at h
  · exact isFault_of_cutAfterSigil h hk
  next hsigil =>
  split at h
  · obtain ⟨rfl, -⟩ := Prod.mk.inj h
    exact absurd hk (Kind.ofName_ne_invalid _)
  · next hname =>
    obtain ⟨rfl, rfl⟩ := Prod.mk.inj h
    obtain ⟨u, rest, hu, hsplit, -⟩ := hs.exists_sequence (by simp)
    obtain ⟨c, u, rfl⟩ := List.exists_cons_of_ne_nil hu.ne_nil
    obtain ⟨rfl, rfl⟩ : b = c ∧ s = u ++ rest := List.cons.inj hsplit
    have hnone : Punctuation.longest? (b :: (u ++ rest)) = none := by
      dsimp only [cutPunctuation] at hk
      split at hk
      · simp at hk
      · next hnone => exact hnone
    rw [cutPunctuation_of_isSequence hu hnone]
    refine isFault_of_isSequence hu (fun s hcomment hback => ?_) hgap hcomment hback hnone
    unfold cutToken
    rw [if_neg hcomment, if_neg hdigit, if_neg hquote, if_neg hapostrophe, if_neg hback,
      if_neg hsigil, if_neg hname]

/-- The text of an invalid lexeme is one by itself. -/
lemma isFault_of_nextLexeme? (hs : Utf8.WellFormed s) (h : nextLexeme? s = some (l, r))
    (hk : l.kind = .invalid) : IsFault l.text := by
  obtain ⟨b, rest, l', hsplit, hgap, hcut, hkind, htext⟩ := exists_cutToken_of_nextLexeme? h
  rw [← htext]
  exact isFault_of_cutToken (hsplit ▸ wellFormed_splitGap hs) hgap hcut (hkind.trans hk)

/-- The text of a lexeme is that lexeme by itself. -/
lemma nextLexeme?_text (hs : Utf8.WellFormed s) (h : nextLexeme? s = some (l, r)) :
    nextLexeme? l.text = some (⟨[], l.kind, l.text⟩, []) := by
  by_cases hk : l.kind = .invalid
  · rw [hk]
    exact isFault_of_nextLexeme? hs h hk
  · have hreads := (reads_of_nextLexeme? h hk).alone.nextLexeme?_eq
    rwa [List.append_nil] at hreads

/-! ### Tokens of a source -/

/-- A text that is one lexeme is one token. -/
lemma map_placement_lex_of_nextLexeme? (file : UInt32) {k : Kind} (ht : Utf8.WellFormed t)
    (hlength : t.length < 2 ^ 32) (h : nextLexeme? t = some (⟨[], k, t⟩, [])) :
    (lex file t).map Token.placement =
      [⟨k, t, 0, t.length⟩, ⟨.eof, [], t.length, t.length⟩] := by
  have hlexemes : lexemes t = [⟨[], k, t⟩] := by rw [lexemes_of_some h, lexemes_nil]
  have hshort : 0 + ([] : Bytes).length + t.length < 2 ^ 32 := by simpa using hlength
  have hplace := placement_place file (l := ⟨[], k, t⟩) hshort
  rw [lex_of_wellFormed ht, tokensOfText, hlexemes, thread_cons, List.map_append,
    List.map_cons, List.map_singleton, placement_atEnd file hlength, hplace]
  simp

/-- A token of UTF-8 text is one lexeme, of UTF-8 text that is no longer. -/
lemma nextLexeme?_lexeme {file : UInt32} (hs : Utf8.WellFormed s) {t : Token}
    (ht : t ∈ tokensOfText file s) :
    Utf8.WellFormed t.lexeme ∧ t.lexeme.length ≤ s.length ∧
      nextLexeme? t.lexeme = some (⟨[], t.kind, t.lexeme⟩, []) := by
  obtain ⟨s', l, r, hsuffix, hs', hnext, hkind, htext⟩ :=
    exists_nextLexeme?_of_mem_tokensOfText hs ht
  rw [← hkind, ← htext]
  refine ⟨(wellFormed_of_nextLexeme?_eq_some hnext hs').1, ?_, nextLexeme?_text hs' hnext⟩
  have hlength := congrArg List.length (nextLexeme?_append hnext)
  have hle := hsuffix.length_le
  simp only [List.length_append] at hlength
  omega

/-- The byte at which a text stops being UTF-8 is not UTF-8 by itself, and so one invalid token. -/
lemma map_placement_lex_singleton (file : UInt32) {offset : Nat}
    (h : Utf8.malformed? s = some (offset, b)) :
    (lex file [b]).map Token.placement = [⟨.invalid, [b], 0, 1⟩, ⟨.eof, [], 1, 1⟩] := by
  obtain ⟨a, r, -, -, -, hstop⟩ := Utf8.exists_split_of_malformed? h
  obtain ⟨offset', c, hc, hlex⟩ :=
    exists_map_placement_lex file (Utf8.not_wellFormed_take hstop 0) (by simp)
  obtain ⟨rfl, rfl⟩ : offset' = 0 ∧ b = c := by simpa [List.getElem?_singleton] using hc
  exact hlex

/-! ### Result -/

/-- A token of a source, valid or not, is known from its bytes: lexed by themselves they are one
token of the same kind that covers them, and then the end. -/
theorem lex_lexeme (file file' : UInt32) {source : Bytes} (hlength : source.length < 2 ^ 32)
    {t : Token} (ht : t ∈ lex file source) (hkind : t.kind ≠ .eof) :
    (lex file' t.lexeme).map Token.placement =
      [⟨t.kind, t.lexeme, 0, t.lexeme.length⟩, ⟨.eof, [], t.lexeme.length, t.lexeme.length⟩] := by
  cases hmalformed : Utf8.malformed? source with
  | none =>
    rw [lex_of_wellFormed hmalformed] at ht
    rcases List.mem_append.1 ht with ht | ht
    · obtain ⟨hwell, hle, hnext⟩ := nextLexeme?_lexeme hmalformed ht
      exact map_placement_lex_of_nextLexeme? file' hwell (by omega) hnext
    · rw [List.mem_singleton.1 ht] at hkind
      exact absurd rfl hkind
  | some p =>
    obtain ⟨offset, b⟩ := p
    rw [lex_of_malformed hmalformed] at ht
    rcases List.mem_cons.1 ht with ht | ht
    · rw [ht]
      exact map_placement_lex_singleton file' hmalformed
    · rw [List.mem_singleton.1 ht] at hkind
      exact absurd rfl hkind

/-- A numeral, a character literal and a quoted identifier, all of them invalid: of the last one the
string is the token, and it is invalid also without the sigil in front. -/
theorem lex_lexeme_of_faults :
    (lex 0 (ascii "0x_1z 'ab' @\"c\n")).map Token.lexeme =
        [ascii "0x_1z", ascii "'ab'", ascii "\"c", []] ∧
      ∀ text ∈ [ascii "0x_1z", ascii "'ab'", ascii "\"c"],
        (lex 0 text).map Token.placement =
          [⟨.invalid, text, 0, text.length⟩, ⟨.eof, [], text.length, text.length⟩] := by
  have hlex : lex 0 (ascii "0x_1z 'ab' @\"c\n") =
      [⟨.invalid, ⟨0, 0, 5⟩, ascii "0x_1z"⟩, ⟨.invalid, ⟨0, 6, 10⟩, ascii "'ab'"⟩,
        ⟨.invalid, ⟨0, 12, 14⟩, ascii "\"c"⟩, ⟨.eof, ⟨0, 15, 15⟩, []⟩] := by
    decide +kernel
  have halone : ∀ t ∈ lex 0 (ascii "0x_1z 'ab' @\"c\n"), t.kind ≠ .eof →
      (lex 0 t.lexeme).map Token.placement =
        [⟨t.kind, t.lexeme, 0, t.lexeme.length⟩,
          ⟨.eof, [], t.lexeme.length, t.lexeme.length⟩] :=
    fun t ht hkind => lex_lexeme 0 0 (by decide) ht hkind
  rw [hlex] at halone ⊢
  simp only [List.forall_mem_cons] at halone ⊢
  exact ⟨rfl, halone.1 (by simp), halone.2.1 (by simp), halone.2.2.1 (by simp), by simp⟩

end ZigGolf
