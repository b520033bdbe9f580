import ZigGolf.Proofs.Minification.Run

/-!
# What comes of a source

A source is accepted if and only if none of its tokens is invalid, and then nothing is reported.
Otherwise nothing is written, and there are two reports: that of the lexer about the first invalid
token, and that the source cannot be minified because of it.  The run ends there, so that no later
token is reported (`minify_outcome`).
-/

namespace ZigGolf

/-! ### Reports of the lexer -/

/-- The reports about an invalid token of a source.  In UTF-8 text such a token is an error, and its
text is mentioned.  Text that is not in UTF-8 is worse, and the place and the byte are mentioned at
which it stops being so. -/
inductive IsReportOn (source : Bytes) (t : Token) : Diagnostic → Prop
  | invalidToken : Utf8.IsEncoding source →
      IsReportOn source t ⟨.error, .invalidToken, t.span, [t.lexeme]⟩
  | invalidUtf8 {b : UInt8} : ¬ Utf8.IsEncoding source → t.lexeme = [b] →
      IsReportOn source t
        ⟨.fatal, .invalidUtf8, t.span, [decimal t.span.lo.toNat, Diagnostic.hexPair b]⟩

variable {file : UInt32} {source : Bytes}

/-- A report about UTF-8 text is about an invalid token of it. -/
lemma exists_eq_of_mem_lexReports (hs : Utf8.WellFormed source) {d : Diagnostic}
    (h : d ∈ lexReports file source) :
    ∃ t ∈ lex file source, t.kind = .invalid ∧ d = .invalidToken t := by
  rw [lexReports_of_wellFormed file hs] at h
  obtain ⟨t, ht, rfl⟩ := List.mem_map.1 h
  obtain ⟨hmem, hkind⟩ := List.mem_filter.1 ht
  rw [lex_of_wellFormed hs]
  exact ⟨t, List.mem_append_left _ hmem, of_decide_eq_true hkind, rfl⟩

/-- The report about a source that is not UTF-8 is about the byte that is its first token. -/
lemma isReportOn_of_malformed (hlength : source.length < 2 ^ 32) {offset : Nat} {b : UInt8}
    (h : Utf8.malformed? source = some (offset, b)) {d : Diagnostic}
    (hd : d ∈ lexReports file source) :
    IsReportOn source ⟨.invalid, ⟨file, offset.toUInt32, offset.toUInt32 + 1⟩, [b]⟩ d := by
  have hnot : ¬ Utf8.IsEncoding source := by
    rw [Utf8.isEncoding_iff, Utf8.WellFormed, h]
    simp
  rw [lexReports_of_malformed file h, min_malformed_add_one h hlength, List.mem_singleton] at hd
  subst hd
  exact .invalidUtf8 hnot rfl

/-- Every report of the lexer is about an invalid token of the source. -/
lemma exists_isReportOn_of_mem_lexReports (hlength : source.length < 2 ^ 32) {d : Diagnostic}
    (h : d ∈ lexReports file source) :
    ∃ t ∈ lex file source, t.kind = .invalid ∧ IsReportOn source t d := by
  cases hmalformed : Utf8.malformed? source with
  | none =>
    obtain ⟨t, ht, hkind, rfl⟩ := exists_eq_of_mem_lexReports hmalformed h
    exact ⟨t, ht, hkind, .invalidToken (Utf8.isEncoding_iff.2 hmalformed)⟩
  | some p =>
    refine ⟨_, ?_, rfl, isReportOn_of_malformed hlength hmalformed h⟩
    rw [lex_of_malformed hmalformed]
    exact List.mem_cons_self

/-- The first report of the lexer is about the first invalid token. -/
lemma isReportOn_of_head? (hlength : source.length < 2 ^ 32) {t : Token} {d : Diagnostic}
    (ht : (lex file source).find? (fun t => t.kind == .invalid) = some t)
    (hd : (lexReports file source).head? = some d) : IsReportOn source t d := by
  cases hmalformed : Utf8.malformed? source with
  | none =>
    have hend : (Token.atEnd file source.length).kind ≠ .invalid := Kind.noConfusion
    rw [lex_of_wellFormed hmalformed, List.find?_append, List.find?_singleton,
      if_neg (by simpa using hend), Option.or_none] at ht
    rw [lexReports_of_wellFormed file hmalformed, reportsOn, List.head?_map, List.head?_filter]
      at hd
    obtain ⟨u, hu, rfl⟩ := Option.map_eq_some_iff.1 hd
    obtain rfl : u = t := Option.some.inj (hu.symm.trans ht)
    exact .invalidToken (Utf8.isEncoding_iff.2 hmalformed)
  | some p =>
    rw [lex_of_malformed hmalformed] at ht
    obtain rfl := Option.some.inj ht
    exact isReportOn_of_malformed hlength hmalformed (List.mem_of_mem_head? hd)

/-! ### Result -/

/-- Without an invalid token a text is written, and nothing is reported. -/
lemma minify_of_forall_valid (ptr64 : Bool) (h : ∀ t ∈ lex file source, t.kind ≠ .invalid) :
    (minify ptr64 file source).1.isSome = true ∧ (minify ptr64 file source).2 = [] := by
  obtain ⟨hs, hvalid⟩ := valid_of_lex h
  obtain ⟨hpieces, hlog⟩ := @minifyRun_of_valid ptr64 file source hs hvalid
  rw [minify, hpieces, hlog]
  exact ⟨rfl, rfl⟩

/-- At the first invalid token the source is given up, with the first report of the lexer. -/
lemma minify_of_first_invalid (ptr64 : Bool) {t : Token}
    (h : (lex file source).find? (fun t => t.kind == .invalid) = some t) :
    ∃ d, (lexReports file source).head? = some d ∧
      minify ptr64 file source = (none, [d, .invalidSource t.span]) := by
  obtain ⟨before, after, hsplit, hbefore, hkind⟩ := split_of_find? h
  rw [← readAll_ofSource file source (some [])] at hsplit
  obtain ⟨hnone, d, more, hall, hrun⟩ :=
    Minifier.run_of_first_invalid {} { ptr64 } hsplit hbefore hkind
  refine ⟨d, ?_, ?_⟩
  · rw [lexReports, hall]
    rfl
  · rw [minify, minifyRun, hnone, hrun]
    rfl

/-- Every report about a source is a report of the lexer, or says that one of its invalid tokens
keeps it from being minified. -/
lemma mem_lexReports_or_of_mem_minify {ptr64 : Bool} {d : Diagnostic}
    (h : d ∈ (minify ptr64 file source).2) :
    d ∈ lexReports file source ∨
      ∃ t ∈ lex file source, t.kind = .invalid ∧ d = .invalidSource t.span := by
  by_cases hvalid : ∀ t ∈ lex file source, t.kind ≠ .invalid
  · rw [(minify_of_forall_valid ptr64 hvalid).2] at h
    simp at h
  · push Not at hvalid
    obtain ⟨u, hu, hkind⟩ := hvalid
    obtain ⟨t, ht⟩ := exists_find?_invalid hu hkind
    obtain ⟨d', hhead, hminify⟩ := minify_of_first_invalid ptr64 ht
    rw [hminify] at h
    rcases List.mem_cons.1 h with rfl | h
    · exact .inl (List.mem_of_mem_head? hhead)
    · obtain ⟨before, after, -, -, hinvalid⟩ := split_of_find? ht
      exact .inr ⟨t, List.mem_of_find?_eq_some ht, hinvalid, List.mem_singleton.1 h⟩

/-- What comes of a source.  A text is written if and only if no token is invalid, and then nothing
is reported.  If there are invalid tokens, the first is reported as the lexer reports it, the source
is reported as invalid at the same place, and that is all. -/
theorem minify_outcome (ptr64 : Bool) (file : UInt32) {source : Bytes}
    (hlength : source.length < 2 ^ 32) :
    ((minify ptr64 file source).1.isSome = true ↔ ∀ t ∈ lex file source, t.kind ≠ .invalid) ∧
      ((∀ t ∈ lex file source, t.kind ≠ .invalid) → (minify ptr64 file source).2 = []) ∧
      ∀ t, (lex file source).find? (fun t => t.kind == .invalid) = some t →
        ∃ d, (lexReports file source).head? = some d ∧ IsReportOn source t d ∧
          minify ptr64 file source = (none, [d, ⟨.fatal, .invalidSource, t.span, []⟩]) := by
  refine ⟨⟨fun hsome t ht hkind => ?_, fun h => (minify_of_forall_valid ptr64 h).1⟩,
    fun h => (minify_of_forall_valid ptr64 h).2, fun t ht => ?_⟩
  · obtain ⟨first, hfirst⟩ := exists_find?_invalid ht hkind
    obtain ⟨d, -, hminify⟩ := minify_of_first_invalid ptr64 hfirst
    rw [hminify] at hsome
    simp at hsome
  · obtain ⟨d, hhead, hminify⟩ := minify_of_first_invalid ptr64 ht
    exact ⟨d, hhead, isReportOn_of_head? hlength ht hhead, hminify⟩

/-- The quoted identifier that is not closed is reported, by what is left of it behind the sigil.
The byte behind it, which starts no token, is not. -/
theorem minify_outcome_of_two :
    lexReports 0 (ascii "x.@\"y\n#") =
        [⟨.error, .invalidToken, ⟨0, 3, 5⟩, [ascii "\"y"]⟩,
          ⟨.error, .invalidToken, ⟨0, 6, 7⟩, [ascii "#"]⟩] ∧
      minify false 0 (ascii "x.@\"y\n#") =
        (none, [⟨.error, .invalidToken, ⟨0, 3, 5⟩, [ascii "\"y"]⟩,
          ⟨.fatal, .invalidSource, ⟨0, 3, 5⟩, []⟩]) := by
  obtain ⟨hfind, hreports⟩ :
      (lex 0 (ascii "x.@\"y\n#")).find? (fun t => t.kind == .invalid) =
          some ⟨.invalid, ⟨0, 3, 5⟩, ascii "\"y"⟩ ∧
        lexReports 0 (ascii "x.@\"y\n#") =
          [⟨.error, .invalidToken, ⟨0, 3, 5⟩, [ascii "\"y"]⟩,
            ⟨.error, .invalidToken, ⟨0, 6, 7⟩, [ascii "#"]⟩] := by
    decide +kernel
  obtain ⟨d, hd, -, hminify⟩ := (minify_outcome false 0 (by decide)).2.2 _ hfind
  rw [hreports] at hd
  rw [← Option.some.inj hd] at hminify
  exact ⟨hreports, hminify⟩

end ZigGolf
