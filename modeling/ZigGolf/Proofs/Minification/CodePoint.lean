import ZigGolf.Proofs.Lexing.Start
import ZigGolf.Proofs.Minification.Outcome

/-!
# Code points stay whole

A token, valid or not, is cut out of UTF-8 text at code points only, so it is UTF-8 text itself
(`wellFormed_lexeme`).  Reports mention nothing but tokens, and what is written is put together from
tokens, short names, numbers and spaces.  So all that comes of UTF-8 text is UTF-8 text
(`isEncoding_results`).
-/

namespace ZigGolf

variable {file : UInt32} {source : Bytes}

/-- The tokens of UTF-8 text, valid or not, are UTF-8 text. -/
lemma wellFormed_lexeme (hs : Utf8.WellFormed source) {t : Token} (ht : t ∈ lex file source) :
    Utf8.WellFormed t.lexeme := by
  rw [lex_of_wellFormed hs] at ht
  rcases List.mem_append.1 ht with ht | ht
  · obtain ⟨s, l, r, -, hs', hnext, -, htext⟩ := exists_nextLexeme?_of_mem_tokensOfText hs ht
    rw [← htext]
    exact (wellFormed_of_nextLexeme?_eq_some hnext hs').1
  · rw [List.mem_singleton.1 ht]
    exact Utf8.wellFormed_nil

/-- A report of the lexer about UTF-8 text mentions tokens of it and nothing else. -/
lemma exists_token_of_mem_args (hs : Utf8.WellFormed source) {d : Diagnostic}
    (hd : d ∈ lexReports file source) {arg : Bytes} (harg : arg ∈ d.args) :
    ∃ t ∈ lex file source, arg = t.lexeme := by
  obtain ⟨t, ht, -, rfl⟩ := exists_eq_of_mem_lexReports hs hd
  exact ⟨t, ht, List.mem_singleton.1 harg⟩

/-! ### Result -/

/-- Of UTF-8 text every token, every text that a report of the lexer or of the minifier mentions,
and what is written if it is accepted, are UTF-8 text. -/
theorem isEncoding_results (file : UInt32) {source : Bytes} (hs : Utf8.IsEncoding source) :
    (∀ t ∈ lex file source, Utf8.IsEncoding t.lexeme) ∧
      (∀ d ∈ lexReports file source, ∀ arg ∈ d.args, Utf8.IsEncoding arg) ∧
      ∀ ptr64, (∀ d ∈ (minify ptr64 file source).2, ∀ arg ∈ d.args, Utf8.IsEncoding arg) ∧
        ∀ output, (minify ptr64 file source).1 = some output → Utf8.IsEncoding output := by
  have hlexeme : ∀ t ∈ lex file source, Utf8.IsEncoding t.lexeme :=
    fun t ht => Utf8.isEncoding_iff.2 (wellFormed_lexeme (Utf8.isEncoding_iff.1 hs) ht)
  have hreport : ∀ d ∈ lexReports file source, ∀ arg ∈ d.args, Utf8.IsEncoding arg := by
    intro d hd arg harg
    obtain ⟨t, ht, rfl⟩ := exists_token_of_mem_args (Utf8.isEncoding_iff.1 hs) hd harg
    exact hlexeme t ht
  refine ⟨hlexeme, hreport, fun ptr64 => ⟨fun d hd arg harg => ?_, fun output houtput => ?_⟩⟩
  · rcases mem_lexReports_or_of_mem_minify hd with hlexer | ⟨t, -, -, rfl⟩
    · exact hreport d hlexer arg harg
    · exact absurd harg List.not_mem_nil
  · obtain ⟨E, hE, rfl⟩ := Option.map_eq_some_iff.1 houtput
    exact Utf8.isEncoding_iff.2 (laid_of_minifyRun hE).1.wellFormed_join

/-- Two characters behind a quote that is not closed, and one that starts no token, are reported
whole; in a string that is closed a character is written. -/
theorem isEncoding_results_of_faults :
    (∀ text ∈ [[apostrophe, 0xC3, 0xA9, 0xC3, 0xA9], [0xE4, 0xB8, 0x96], []],
        Utf8.IsEncoding text) ∧
      (minify false 0 (ascii "x = \"" ++ [0xC3, 0xA9] ++ ascii "\" ;")).1 =
        some (ascii "a=\"" ++ [0xC3, 0xA9] ++ ascii "\";") ∧
      Utf8.IsEncoding (ascii "a=\"" ++ [0xC3, 0xA9] ++ ascii "\";") := by
  have hfaults :
      Utf8.IsEncoding [apostrophe, 0xC3, 0xA9, 0xC3, 0xA9, lineFeed, 0xE4, 0xB8, 0x96] :=
    ⟨['\'', Char.ofNat 0xE9, Char.ofNat 0xE9, '\n', Char.ofNat 0x4E16], by decide⟩
  have hclosed : Utf8.IsEncoding (ascii "x = \"" ++ [0xC3, 0xA9] ++ ascii "\" ;") :=
    ⟨"x = \"".toList ++ [Char.ofNat 0xE9] ++ "\" ;".toList, by decide⟩
  have hlexemes : (lex 0 [apostrophe, 0xC3, 0xA9, 0xC3, 0xA9, lineFeed, 0xE4, 0xB8, 0x96]).map
      Token.lexeme = [[apostrophe, 0xC3, 0xA9, 0xC3, 0xA9], [0xE4, 0xB8, 0x96], []] := by
    decide +kernel
  have hminify : (minify false 0 (ascii "x = \"" ++ [0xC3, 0xA9] ++ ascii "\" ;")).1 =
      some (ascii "a=\"" ++ [0xC3, 0xA9] ++ ascii "\";") := by
    decide +kernel
  refine ⟨?_, hminify, ((isEncoding_results 0 hclosed).2.2 false).2 _ hminify⟩
  rw [← hlexemes, List.forall_mem_map]
  exact (isEncoding_results 0 hfaults).1

end ZigGolf
