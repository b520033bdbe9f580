import ZigGolf.Proofs.Lexing.Malformed

/-!
# What a lexer records

A scanner that finds no token reports that there and then, and no other scanner reports anything
(`Lexer.scan_eq_some`); so a step of the lexer records one report if its token is invalid and none
if it is valid (`Lexer.recorded_next_of_clear`), and what is read in a step does not depend on the
log (`Lexer.next_silent`).

What is recorded on the way to the end then mirrors the invalid tokens: of UTF-8 text each of them
is recorded once, in order, and of any other source the one byte at which it stops being UTF-8
(`readAll_tokens_log`).
-/

namespace ZigGolf

/-! ### The reports of a source -/

variable {file : UInt32} {source : Bytes}

/-- Each invalid token of UTF-8 text is reported, and nothing else is. -/
lemma lexReports_eq_map_filter (hs : Utf8.WellFormed source) :
    lexReports file source = ((lex file source).filter fun t => t.kind = .invalid).map fun t =>
      ⟨.error, .invalidToken, t.span, [t.lexeme]⟩ := by
  have hend : reportsOn [Token.atEnd file source.length] = [] := rfl
  have hlex := reportsOn_append (tokensOfText file source) [Token.atEnd file source.length]
  rw [hend, List.append_nil, ← lex_of_wellFormed hs] at hlex
  rw [lexReports_of_wellFormed file hs, ← hlex]
  rfl

/-- A byte is written as the digit of its upper half and that of its lower half. -/
lemma map_hexPair : ∀ b : UInt8, (Diagnostic.hexPair b).map some =
    [(ascii "0123456789ABCDEF")[b.toNat / 16]?, (ascii "0123456789ABCDEF")[b.toNat % 16]?] := by
  decide +kernel

/-- A byte is mentioned by the two digits of its number. -/
lemma exists_hexPair_eq (b : UInt8) : ∃ high low, Diagnostic.hexPair b = [high, low] ∧
    (ascii "0123456789ABCDEF")[b.toNat / 16]? = some high ∧
    (ascii "0123456789ABCDEF")[b.toNat % 16]? = some low := by
  obtain ⟨hhigh, hlow⟩ := List.cons.inj (map_hexPair b)
  exact ⟨_, _, rfl, hhigh.symm, (List.cons.inj hlow).1.symm⟩

/-- Of a source that is not UTF-8 one byte is reported, the one behind the longest part at the front
that is UTF-8. -/
lemma exists_lexReports_eq (file : UInt32) (hlength : source.length < 2 ^ 32)
    (hs : ¬ Utf8.IsEncoding source) :
    ∃ (offset : Nat) (b high low : UInt8) (span : Span),
      source[offset]? = some b ∧ Utf8.IsEncoding (source.take offset) ∧
      (∀ n ≤ source.length, Utf8.IsEncoding (source.take n) → n ≤ offset) ∧
      (ascii "0123456789ABCDEF")[b.toNat / 16]? = some high ∧
      (ascii "0123456789ABCDEF")[b.toNat % 16]? = some low ∧
      span.file = file ∧ span.lo.toNat = offset ∧ span.hi.toNat = offset + 1 ∧
      lexReports file source =
        [⟨.fatal, .invalidUtf8, span, [decimal offset, [high, low]]⟩] := by
  cases hmalformed : Utf8.malformed? source with
  | none => exact absurd (Utf8.isEncoding_iff.2 hmalformed) hs
  | some p =>
    obtain ⟨offset, b⟩ := p
    have hlongest : ∀ n ≤ source.length, Utf8.IsEncoding (source.take n) → n ≤ offset :=
      fun n hn hn' => Utf8.le_of_wellFormed_take hmalformed hn (Utf8.isEncoding_iff.1 hn')
    obtain ⟨high, low, hpair, hhigh, hlow⟩ := exists_hexPair_eq b
    obtain ⟨a, r, rfl, rfl, ha, -⟩ := Utf8.exists_split_of_malformed? hmalformed
    obtain ⟨span, hfile, hlo, hhi, -, hreports⟩ :=
      exists_span_of_malformed? file hmalformed hlength
    rw [hpair] at hreports
    refine ⟨a.length, b, high, low, span, by simp, ?_, hlongest, hhigh, hlow, hfile, hlo, hhi,
      hreports⟩
    rw [List.take_left, Utf8.isEncoding_iff]
    exact ha

/-! ### Result -/

/-- The tokens of a source are the same whether a log is kept or not.  What is added to a log is, of
UTF-8 text, one error for each invalid token, in order, with the place and the text of that token.
Of any other source it is one fatal report, about the byte behind the longest part at its front that
is UTF-8: its offset, and its number in two digits. -/
theorem readAll_tokens_log (file : UInt32) {source : Bytes} (hlength : source.length < 2 ^ 32) :
    (∀ log, (Lexer.ofSource file source log).readAll.1 = lex file source) ∧
      (Lexer.ofSource file source none).readAll.2.log = none ∧
      (Utf8.IsEncoding source → ∀ log,
        (Lexer.ofSource file source (some log)).readAll.2.log =
          some (log ++ ((lex file source).filter fun t => t.kind = .invalid).map fun t =>
            ⟨.error, .invalidToken, t.span, [t.lexeme]⟩)) ∧
      (¬ Utf8.IsEncoding source → ∃ (offset : Nat) (b high low : UInt8) (span : Span),
        source[offset]? = some b ∧ Utf8.IsEncoding (source.take offset) ∧
        (∀ n ≤ source.length, Utf8.IsEncoding (source.take n) → n ≤ offset) ∧
        (ascii "0123456789ABCDEF")[b.toNat / 16]? = some high ∧
        (ascii "0123456789ABCDEF")[b.toNat % 16]? = some low ∧
        span.file = file ∧ span.lo.toNat = offset ∧ span.hi.toNat = offset + 1 ∧
        ∀ log, (Lexer.ofSource file source (some log)).readAll.2.log =
          some (log ++ [⟨.fatal, .invalidUtf8, span, [decimal offset, [high, low]]⟩])) := by
  have hlog := log_readAll_ofSource file source
  refine ⟨readAll_ofSource file source, hlog none, fun hs log => ?_, fun hs => ?_⟩
  · rw [hlog, Option.map_some, lexReports_eq_map_filter (Utf8.isEncoding_iff.1 hs)]
  · obtain ⟨offset, b, high, low, span, hb, hfront, hlongest, hhigh, hlow, hfile, hlo, hhi,
      hreports⟩ := exists_lexReports_eq file hlength hs
    refine ⟨offset, b, high, low, span, hb, hfront, hlongest, hhigh, hlow, hfile, hlo, hhi,
      fun log => ?_⟩
    rw [hlog, hreports, Option.map_some]

/-- A numeral, a string with a bad escape, an empty character, a sigil alone, a quoted identifier
that is not closed and a byte that starts no token are recorded as errors, in turn, and a byte that
is in no encoding as fatal. -/
theorem readAll_tokens_log_of_faults :
    (Lexer.ofSource 0 (ascii "1_ \"\\q\" '' @ @\"z\n$") (some [])).readAll.2.log =
        some [⟨.error, .invalidToken, ⟨0, 0, 2⟩, [ascii "1_"]⟩,
          ⟨.error, .invalidToken, ⟨0, 3, 7⟩, [ascii "\"\\q\""]⟩,
          ⟨.error, .invalidToken, ⟨0, 8, 10⟩, [ascii "''"]⟩,
          ⟨.error, .invalidToken, ⟨0, 11, 12⟩, [ascii "@"]⟩,
          ⟨.error, .invalidToken, ⟨0, 14, 16⟩, [ascii "\"z"]⟩,
          ⟨.error, .invalidToken, ⟨0, 17, 18⟩, [ascii "$"]⟩] ∧
      ∃ span : Span, span.lo.toNat = 1 ∧ span.hi.toNat = 2 ∧
        (Lexer.ofSource 0 [byte 'a', 0xFE] (some [])).readAll.2.log =
          some [⟨.fatal, .invalidUtf8, span, [ascii "1", ascii "FE"]⟩] := by
  constructor
  · have hencoding : Utf8.IsEncoding (ascii "1_ \"\\q\" '' @ @\"z\n$") :=
      ⟨"1_ \"\\q\" '' @ @\"z\n$".toList, by decide⟩
    have hlex : lex 0 (ascii "1_ \"\\q\" '' @ @\"z\n$") =
        [⟨.invalid, ⟨0, 0, 2⟩, ascii "1_"⟩, ⟨.invalid, ⟨0, 3, 7⟩, ascii "\"\\q\""⟩,
          ⟨.invalid, ⟨0, 8, 10⟩, ascii "''"⟩, ⟨.invalid, ⟨0, 11, 12⟩, ascii "@"⟩,
          ⟨.invalid, ⟨0, 14, 16⟩, ascii "\"z"⟩, ⟨.invalid, ⟨0, 17, 18⟩, ascii "$"⟩,
          ⟨.eof, ⟨0, 18, 18⟩, []⟩] := by
      decide +kernel
    rw [(readAll_tokens_log 0 (by decide)).2.2.1 hencoding, hlex]
    rfl
  · have hmalformed : Utf8.malformed? [byte 'a', 0xFE] = some (1, 0xFE) := by decide +kernel
    have hnot : ¬ Utf8.IsEncoding [byte 'a', 0xFE] := by
      rw [Utf8.isEncoding_iff, Utf8.WellFormed, hmalformed]
      simp
    obtain ⟨offset, b, high, low, span, hb, -, hlongest, hhigh, hlow, -, hlo, hhi, hlog⟩ :=
      (readAll_tokens_log 0 (by decide)).2.2.2 hnot
    have hle : 1 ≤ offset := hlongest 1 (by decide) ⟨['a'], by decide⟩
    obtain rfl : offset = 1 := by
      have hlt := (List.getElem?_eq_some_iff.1 hb).1
      rw [List.length_cons, List.length_singleton] at hlt
      omega
    obtain rfl : 0xFE = b := Option.some.inj hb
    obtain rfl : byte 'F' = high := Option.some.inj hhigh
    obtain rfl : byte 'E' = low := Option.some.inj hlow
    exact ⟨span, hlo, hhi, hlog []⟩

end ZigGolf
