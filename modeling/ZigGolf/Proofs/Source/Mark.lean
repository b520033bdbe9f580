import ZigGolf.Proofs.Lexing.Fault
import ZigGolf.Proofs.Minification.Outcome
import ZigGolf.Proofs.Source.Line
import ZigGolf.Proofs.Source.Width

/-!
# Where reports point to

A report is shown with the line and column of its place, and with a mark under the text at that
place.  The column is counted in the text up to the place, the columns before the mark in the whole
line, and the two counts agree where a code point starts (`SourceFile.position_eq_of_wellFormed`).
Reports are about tokens, and tokens start where code points do, or where a text stops being UTF-8
(`exists_split_of_invalid`).
-/

namespace ZigGolf

variable {file : UInt32} {source s : Bytes}

/-! ### Tokens start at code points -/

/-- In front of a lexeme of UTF-8 text stands UTF-8 text. -/
lemma exists_split_of_mem_thread_place (file : UInt32) (offset : Nat) (hs : Utf8.WellFormed s)
    (hlength : offset + s.length < 2 ^ 32) {t : Token}
    (ht : t ∈ (thread (Lexeme.place file) offset (lexemes s)).1) :
    ∃ a c, s = a ++ c ∧ t.span.lo.toNat = offset + a.length ∧ Utf8.WellFormed a := by
  induction s using lexemeInduction generalizing offset with
  | gap s hnext => simp [lexemes_of_none hnext] at ht
  | lexeme s l r hnext ih =>
    obtain ⟨htext, hr⟩ := wellFormed_of_nextLexeme?_eq_some hnext hs
    rw [lexemes_of_some hnext, thread_cons] at ht
    obtain rfl := nextLexeme?_append hnext
    rw [List.append_assoc] at hs
    have hgap := hs.of_append (htext.append hr)
    simp only [List.length_append] at hlength
    rcases List.mem_cons.1 ht with rfl | ht
    · refine ⟨l.gap, l.text ++ r, List.append_assoc _ _ _, ?_, hgap⟩
      exact congrArg Placement.lo (placement_place file (by omega))
    · have hend : (Lexeme.place file offset l).2 = offset + l.gap.length + l.text.length := rfl
      rw [hend] at ht
      obtain ⟨a, c, rfl, hlo, ha⟩ := ih _ hr (by omega) ht
      refine ⟨l.gap ++ l.text ++ a, c, by simp, ?_, (hgap.append htext).append ha⟩
      rw [hlo, List.length_append, List.length_append]
      omega

/-- In front of an invalid token of any source stands UTF-8 text. -/
lemma exists_split_of_invalid (hlength : source.length < 2 ^ 32) {t : Token}
    (ht : t ∈ lex file source) (hkind : t.kind = .invalid) :
    ∃ a c, source = a ++ c ∧ t.span.lo.toNat = a.length ∧ Utf8.WellFormed a := by
  have hend : t ≠ Token.atEnd file source.length := by
    rintro rfl
    exact Kind.noConfusion hkind
  cases hmalformed : Utf8.malformed? source with
  | none =>
    rw [lex_of_wellFormed hmalformed] at ht
    have hmem := (List.mem_append.1 ht).resolve_right fun h => hend (List.mem_singleton.1 h)
    obtain ⟨a, c, hsplit, hlo, ha⟩ :=
      exists_split_of_mem_thread_place file 0 hmalformed (by omega) hmem
    exact ⟨a, c, hsplit, by omega, ha⟩
  | some p =>
    obtain ⟨offset, b⟩ := p
    rw [lex_of_malformed hmalformed] at ht
    obtain rfl := (List.mem_cons.1 ht).resolve_right fun h => hend (List.mem_singleton.1 h)
    obtain ⟨a, r, rfl, rfl, ha, -⟩ := Utf8.exists_split_of_malformed? hmalformed
    refine ⟨a, b :: r, rfl, ?_, ha⟩
    rw [List.length_append] at hlength
    dsimp only
    rw [Nat.toUInt32, UInt32.toNat_ofNat', Nat.mod_eq_of_lt (by omega)]

/-! ### Reports are about tokens -/

/-- A report points to an invalid token. -/
lemma exists_invalid_of_report (hlength : source.length < 2 ^ 32) {ptr64 : Bool} {d : Diagnostic}
    (h : d ∈ lexReports file source ∨ d ∈ (minify ptr64 file source).2) :
    ∃ t ∈ lex file source, t.kind = .invalid ∧ d.span = t.span := by
  have hlexer : d ∈ lexReports file source →
      ∃ t ∈ lex file source, t.kind = .invalid ∧ d.span = t.span := by
    intro h
    obtain ⟨t, ht, hkind, hon⟩ := exists_isReportOn_of_mem_lexReports hlength h
    refine ⟨t, ht, hkind, ?_⟩
    cases hon with
    | invalidToken => rfl
    | invalidUtf8 => rfl
  rcases h with h | h
  · exact hlexer h
  · rcases mem_lexReports_or_of_mem_minify h with h | ⟨t, ht, hkind, rfl⟩
    · exact hlexer h
    · exact ⟨t, ht, hkind, rfl⟩

/-! ### Line and column, and the mark -/

/-- A line starts with a code point. -/
lemma LineSplit.wellFormed_left {before left right after : Bytes}
    (h : LineSplit s before left right after) (hs : Utf8.WellFormed (before ++ left)) :
    Utf8.WellFormed left := by
  cases hlast : before.getLast? with
  | none =>
    rw [List.getLast?_eq_none_iff.1 hlast] at hs
    exact hs
  | some b =>
    obtain rfl := h.eq_of_mem_getLast? b hlast
    exact (hs.cut (.inl ⟨lineFeed, hlast, by decide⟩)).2

namespace SourceFile

variable {f : SourceFile} {a c : Bytes} {lo : UInt32}

/-- Where a code point starts, the line and the column are those of the mark. -/
lemma position_eq_of_wellFormed (hlength : f.content.size < 2 ^ 32)
    (hcontent : f.content.toList = a ++ c) (hlo : lo.toNat = a.length) (ha : Utf8.WellFormed a)
    (hi context : UInt32) :
    f.position lo =
      ⟨(f.snippet lo hi context).firstLine + (f.snippet lo hi context).markLine,
        (f.snippet lo hi context).markBefore + 1⟩ := by
  obtain ⟨before, left, right, after, rfl, hsplit⟩ := exists_lineSplit a c
  rw [← hcontent] at hsplit
  have hle : lo ≤ f.size := by
    rw [UInt32.le_iff_toNat_le, toNat_size hlength, hlo]
    exact hsplit.length_le
  have hmin : min lo f.size = lo := if_pos hle
  have hstart := toNat_lineStart hlength hsplit hlo
  have hbefore : (lo - f.lineStart (f.lineAt lo)).toNat = left.length := by
    rw [List.length_append] at hlo
    rw [UInt32.toNat_sub_of_le _ _ (by rw [UInt32.le_iff_toNat_le]; omega), hstart]
    omega
  have hleft := hsplit.wellFormed_left ha
  have hline : f.lineAt lo + 1 =
      (if context < f.lineAt lo then f.lineAt lo - context else 0) + 1 +
        (f.lineAt lo - if context < f.lineAt lo then f.lineAt lo - context else 0) := by
    grind
  rw [position, snippet]
  dsimp only
  rw [hmin, slice_lineStart hlength hsplit hlo, line_lineAt hlength hsplit hlo, hbefore,
    displayWidth_append hleft, ← hline]

end SourceFile

/-! ### Result -/

/-- Line and column of a report and the mark under the text name the same place, for every report
about a source that is known to a registry and however many lines around it are shown. -/
theorem position_eq_mark {registry : Registry} {file : UInt32} {f : SourceFile} {source : Bytes}
    (hfile : registry.file? file = some f) (hcontent : f.content.toList = source)
    (hlength : source.length < 2 ^ 32 - 1) {ptr64 : Bool} {d : Diagnostic}
    (hd : d ∈ lexReports file source ∨ d ∈ (minify ptr64 file source).2) (context : UInt32) :
    (registry.position file d.span.lo).line =
        (registry.snippet d.span context).firstLine + (registry.snippet d.span context).markLine ∧
      (registry.position file d.span.lo).column =
        (registry.snippet d.span context).markBefore + 1 := by
  obtain ⟨t, ht, hkind, hspan⟩ := exists_invalid_of_report (by omega) hd
  have hspanfile : d.span.file = file := by
    rw [hspan]
    exact file_of_mem_lex ht
  obtain ⟨a, c, hsplit, hlo, ha⟩ := exists_split_of_invalid (by omega) ht hkind
  rw [← hspan] at hlo
  have hsize : f.content.size < 2 ^ 32 := by
    rw [← Array.length_toList, hcontent]
    omega
  have hposition := SourceFile.position_eq_of_wellFormed hsize (hcontent.trans hsplit) hlo ha
    d.span.hi context
  rw [Registry.position, Registry.snippet, hspanfile, hfile]
  dsimp only
  rw [hposition]
  exact ⟨rfl, rfl⟩

/-- A code point that breaks off behind a wide one, in the second line. -/
theorem position_eq_mark_of_malformed :
    let source := ascii "x\n\"" ++ [0xE4, 0xB8, 0x96, 0xE4]
    let registry : Registry := (({} : Registry).add (ascii "x.zig") source).2
    (minify false 0 source).2 =
        [⟨.fatal, .invalidUtf8, ⟨0, 6, 7⟩, [ascii "6", ascii "E4"]⟩,
          ⟨.fatal, .invalidSource, ⟨0, 6, 7⟩, []⟩] ∧
      (registry.snippet ⟨0, 6, 7⟩ 0).firstLine + (registry.snippet ⟨0, 6, 7⟩ 0).markLine = 2 ∧
      (registry.snippet ⟨0, 6, 7⟩ 0).markBefore + 1 = 4 := by
  intro source registry
  obtain ⟨hlog, hposition⟩ : (minify false 0 source).2 =
        [⟨.fatal, .invalidUtf8, ⟨0, 6, 7⟩, [ascii "6", ascii "E4"]⟩,
          ⟨.fatal, .invalidSource, ⟨0, 6, 7⟩, []⟩] ∧
      registry.position 0 6 = ⟨2, 4⟩ := by
    decide +kernel
  obtain ⟨hline, hcolumn⟩ := @position_eq_mark registry 0 _ source rfl rfl (by decide) false _
    (.inr (hlog ▸ List.mem_cons_self)) 0
  rw [hposition] at hline hcolumn
  exact ⟨hlog, hline.symm, hcolumn.symm⟩

end ZigGolf
