import ZigGolf.Proofs.Lexing.Tiling
import ZigGolf.Proofs.Minification.Relexing
import ZigGolf.Proofs.Minification.Step
import ZigGolf.Proofs.Naming.Renaming

/-!
# What a run writes

A run over a source that is accepted writes its tokens, doc comments apart, one piece for each
(`minifyRun_eq_some_iff`).  Each piece is a token again, by itself in UTF-8 and with a space where
one is due, so that what is written is laid out (`laid_of_minifyRun`).
-/

namespace ZigGolf

/-! ### The tokens of a source -/

/-- The tokens that are valid by themselves, in UTF-8. -/
structure Token.IsSound (t : Token) : Prop where
  reads : Reads t.kind t.lexeme []
  wellFormed : Utf8.WellFormed t.lexeme

/-- The tokens as they follow one another: of the lines of multiline strings only the last token may
lack its line feed. -/
def LinesEnd (ts : List Token) : Prop :=
  ts.Pairwise fun t _ => t.kind = .multilineStringLine → t.lexeme.getLast? = some lineFeed

/-- The lexemes of a text in UTF-8, if they are all valid, are valid by themselves, and only the
last one may be a line without its line feed. -/
lemma lexemes_spec {s : Bytes} (hs : Utf8.WellFormed s)
    (hvalid : ∀ l ∈ lexemes s, l.kind ≠ .invalid) :
    (∀ l ∈ lexemes s, Reads l.kind l.text [] ∧ Utf8.WellFormed l.text) ∧
      (lexemes s).Pairwise fun l _ =>
        l.kind = .multilineStringLine → l.text.getLast? = some lineFeed := by
  induction s using lexemeInduction with
  | gap s hnext => simp [lexemes_of_none hnext]
  | lexeme s l r hnext ih =>
    rw [lexemes_of_some hnext] at hvalid ⊢
    have hl := hvalid l List.mem_cons_self
    have hreads := reads_of_nextLexeme? hnext hl
    obtain ⟨htext, hr⟩ := wellFormed_of_nextLexeme? hnext hl hs
    obtain ⟨hrest, hlines⟩ := ih hr fun l' hl' =>
      hvalid l' (List.mem_cons_of_mem l hl')
    constructor
    · intro l' hl'
      rcases List.mem_cons.1 hl' with rfl | hl'
      · exact ⟨hreads.alone, htext⟩
      · exact hrest l' hl'
    · refine List.pairwise_cons.2 ⟨fun l' hl' hkind => ?_, hlines⟩
      rw [hkind] at hreads
      rcases hreads.getLast?_or_eq_nil with hlast | rfl
      · exact hlast
      · simp at hl'

/-- The tokens of a source, if they are all valid, are sound and end their lines. -/
lemma isSound_tokensOfText {file : UInt32} {s : Bytes} (hs : Utf8.WellFormed s)
    (hvalid : ∀ t ∈ tokensOfText file s, t.kind ≠ .invalid) :
    (∀ t ∈ tokensOfText file s, t.IsSound) ∧ LinesEnd (tokensOfText file s) := by
  obtain ⟨hsound, hlines⟩ :=
    lexemes_spec hs ((forall_tokensOfText_iff file (P := fun q => q.1 ≠ .invalid)).1 hvalid)
  constructor
  · have htokens := (forall_tokensOfText_iff file
      (P := fun q => Reads q.1 q.2 [] ∧ Utf8.WellFormed q.2)).2 hsound
    intro t ht
    exact ⟨(htokens t ht).1, (htokens t ht).2⟩
  · have hpairs : ((lexemes s).map fun l => (l.kind, l.text)).Pairwise fun q _ =>
        q.1 = .multilineStringLine → q.2.getLast? = some lineFeed := List.pairwise_map.2 hlines
    rw [← map_tokensOfText file] at hpairs
    exact List.pairwise_map.1 hpairs

/-! ### Writing one token -/

/-- The kind of what is written for a token: a character literal that is written as a number is an
integer. -/
def Token.writtenKind (t : Token) : Kind :=
  if t.kind = .charLit ∧ (charCode? t.lexeme).isSome = true then .intLit else t.kind

/-- Numbers of one byte are written as whole numbers. -/
lemma cutNumber_decimal : ∀ b : UInt8,
    cutNumber (decimal b.toNat) = (.intLit, decimal b.toNat, []) ∧
      (decimal b.toNat).head?.any isDigit = true := by
  decide +kernel

/-- The number of a character is an integer by itself. -/
lemma reads_decimal (b : UInt8) : Reads .intLit (decimal b.toNat) [] := by
  obtain ⟨hcut, hhead⟩ := cutNumber_decimal b
  cases h : decimal b.toNat with
  | nil => simp [h] at hhead
  | cons c t =>
    rw [h] at hcut hhead
    exact .number (by simpa using hhead) (by simp) hcut rfl fun _ => rfl

/-- Plain bytes are UTF-8 text. -/
lemma wellFormed_of_isPlain {t : Bytes} (h : ∀ b ∈ t, isPlain b = true) : Utf8.WellFormed t :=
  Utf8.wellFormed_of_ascii fun b hb => ascii_of_isPlain b (h b hb)

/-- All that can be written for a token. -/
lemma spell_cases (m : Minifier) (names : Renaming) (t : Token) :
    (t.kind = .ident ∧ m.last ≠ .punct .period ∧
        m.spell names t = ((.ident, (names.renameIdentifier t.lexeme).1),
          (names.renameIdentifier t.lexeme).2)) ∨
      (∃ code, t.kind = .charLit ∧ charCode? t.lexeme = some code ∧
        m.spell names t = ((.intLit, decimal code.toNat), names)) ∨
      ((t.kind = .ident → m.last = .punct .period) ∧
        (t.kind = .charLit → charCode? t.lexeme = none) ∧
        m.spell names t = ((t.kind, t.lexeme), names)) := by
  unfold Minifier.spell
  split
  · next hkind =>
    split
    · next hlast => exact .inr (.inr ⟨fun _ => hlast, by simp [hkind], by rw [hkind]⟩)
    · next hlast => exact .inl ⟨hkind, hlast, rfl⟩
  · next hkind =>
    split
    · next code hcode => exact .inr (.inl ⟨code, hkind, hcode, rfl⟩)
    · next hcode => exact .inr (.inr ⟨by simp [hkind], fun _ => hcode, by rw [hkind]⟩)
  · next hident hchar => exact .inr (.inr ⟨fun h => absurd h hident, fun h => absurd h hchar, rfl⟩)

/-- An identifier that does not stand behind a period is renamed. -/
lemma spell_of_binding {m : Minifier} (names : Renaming) {t : Token} (hkind : t.kind = .ident)
    (hlast : m.last ≠ .punct .period) :
    m.spell names t = ((.ident, (names.renameIdentifier t.lexeme).1),
      (names.renameIdentifier t.lexeme).2) := by
  simp only [Minifier.spell, hkind, hlast, ↓reduceIte]

/-- What is neither renamed nor written as a number is written as it is. -/
lemma spell_of_other {m : Minifier} (names : Renaming) {t : Token}
    (hident : t.kind = .ident → m.last = .punct .period)
    (hchar : t.kind = .charLit → charCode? t.lexeme = none) :
    m.spell names t = ((t.kind, t.lexeme), names) := by
  rcases spell_cases m names t with ⟨hkind, hlast, -⟩ | ⟨code, hkind, hcode, -⟩ | ⟨-, -, h⟩
  · exact absurd (hident hkind) hlast
  · rw [hchar hkind] at hcode
    simp at hcode
  · exact h

/-- The kind of what is written depends on the token only. -/
lemma kind_spell (m : Minifier) (names : Renaming) (t : Token) :
    (m.spell names t).1.1 = t.writtenKind := by
  rcases spell_cases m names t with ⟨hkind, -, h⟩ | ⟨code, hkind, hcode, h⟩ | ⟨-, hchar, h⟩
  · simp [h, Token.writtenKind, hkind]
  · simp [h, Token.writtenKind, hkind, hcode]
  · have hnot : ¬ (t.kind = .charLit ∧ (charCode? t.lexeme).isSome = true) := by
      rintro ⟨hkind, hsome⟩
      simp [hchar hkind] at hsome
    rw [h, Token.writtenKind, if_neg hnot]

/-- A token leaves the short names as they are, or one name is renamed. -/
lemma names_spell (m : Minifier) (names : Renaming) (t : Token) :
    (m.spell names t).2 = names ∨ ∃ name, (m.spell names t).2 = (names.rename name).2 := by
  rcases spell_cases m names t with ⟨-, -, h⟩ | ⟨code, -, -, h⟩ | ⟨-, -, h⟩
  · exact .inr ⟨names.key t.lexeme, by rw [h]; rfl⟩
  · exact .inl (by rw [h])
  · exact .inl (by rw [h])

/-- What is written for a sound token is a token by itself. -/
lemma reads_spell (m : Minifier) {names : Renaming} (hnames : names.Proper) {t : Token}
    (ht : t.IsSound) :
    Reads (m.spell names t).1.1 (m.spell names t).1.2 [] ∧
      Utf8.WellFormed (m.spell names t).1.2 := by
  rcases spell_cases m names t with ⟨-, -, h⟩ | ⟨code, -, -, h⟩ | ⟨-, -, h⟩
  · rw [h]
    obtain ⟨hplain, hkeyword⟩ := hnames.isPlainName_rename (names.key t.lexeme)
    constructor
    · rw [← Kind.ofName_eq_ident_iff.2 hkeyword]
      exact .name hplain rfl
    · exact wellFormed_of_isPlain (isPlain_of_isPlainName hplain)
  · rw [h]
    exact ⟨reads_decimal code,
      wellFormed_of_isPlain (isPlain_of_cutNumber (cutNumber_decimal code).1)⟩
  · rw [h]
    exact ⟨ht.reads, ht.wellFormed⟩

/-- Whatever token is written, the short names stay as they may be given. -/
lemma proper_spell (m : Minifier) {names : Renaming} (hnames : names.Proper) (t : Token) :
    (m.spell names t).2.Proper := by
  rcases names_spell m names t with h | ⟨name, h⟩
  · rwa [h]
  · rw [h]
    exact hnames.rename name

/-! ### Writing all tokens -/

/-- A line of a multiline string is written as it is. -/
lemma lexeme_of_spell_multiline (m : Minifier) (names : Renaming) (t : Token)
    (h : (m.spell names t).1.1 = .multilineStringLine) :
    t.kind = .multilineStringLine ∧ (m.spell names t).1.2 = t.lexeme := by
  rcases spell_cases m names t with ⟨-, -, hspell⟩ | ⟨code, -, -, hspell⟩ | ⟨-, -, hspell⟩
  · simp [hspell] at h
  · simp [hspell] at h
  · rw [hspell] at h ⊢
    exact ⟨h, rfl⟩

/-- What is written for sound tokens is laid out, one piece for each token. -/
lemma laid_thread {ts : List Token} (hsound : ∀ t ∈ ts, t.IsSound)
    (hdoc : ∀ t ∈ ts, t.kind.isDocComment = false) (hlines : LinesEnd ts) (m : Minifier)
    {names : Renaming} (hnames : names.Proper) :
    Laid m.last m.lastQuoted (thread Minifier.write (m, names) ts).1 ∧
      (thread Minifier.write (m, names) ts).1.map Piece.kind = ts.map Token.writtenKind := by
  induction ts generalizing m names with
  | nil => exact ⟨.nil, rfl⟩
  | cons t ts ih =>
    have hkind := kind_spell m names t
    obtain ⟨hreads, hutf8⟩ := reads_spell m hnames (hsound t List.mem_cons_self)
    obtain ⟨hline, hlines⟩ := List.pairwise_cons.1 hlines
    obtain ⟨hlaid, hkinds⟩ := ih (fun t' ht' => hsound t' (List.mem_cons_of_mem t ht'))
      (fun t' ht' => hdoc t' (List.mem_cons_of_mem t ht')) hlines
      (Minifier.write (m, names) t).2.1 (proper_spell m hnames t)
    rw [thread_cons]
    constructor
    · refine .cons ⟨hreads, ?_, hutf8⟩ ?_ rfl hlaid
      · change (m.spell names t).1.1.isDocComment = false
        rw [hkind, Token.writtenKind]
        split
        · rfl
        · exact hdoc t List.mem_cons_self
      · intro hmulti
        obtain ⟨hmulti', htext⟩ := lexeme_of_spell_multiline m names t hmulti
        cases ts with
        | nil => exact .inr rfl
        | cons t' ts =>
          left
          change (m.spell names t).1.2.getLast? = some lineFeed
          rw [htext]
          exact hline t' List.mem_cons_self hmulti'
    · rw [List.map_cons, List.map_cons]
      exact List.cons_eq_cons.2 ⟨hkind, hkinds⟩

/-! ### Runs over sources -/

variable {ptr64 : Bool} {file : UInt32} {source : Bytes} {E : List Piece}

/-- The tokens of a source that are written: all in front of its end but doc comments. -/
def keptTokens (file : UInt32) (source : Bytes) : List Token :=
  (lex file source).dropLast.filter fun t => !t.kind.isDocComment

/-- Of UTF-8 text all tokens are kept but doc comments. -/
lemma keptTokens_eq (hs : Utf8.WellFormed source) :
    keptTokens file source = (tokensOfText file source).filter fun t => !t.kind.isDocComment := by
  rw [keptTokens, lex_of_wellFormed hs, List.dropLast_concat]

/-- Text that is not in UTF-8 has an invalid token. -/
lemma valid_of_lex (h : ∀ t ∈ lex file source, t.kind ≠ .invalid) :
    Utf8.WellFormed source ∧ ∀ t ∈ tokensOfText file source, t.kind ≠ .invalid := by
  have hs : Utf8.WellFormed source := by
    by_contra hs
    obtain ⟨offset, b, -, hlex⟩ := exists_lex_eq_of_not_wellFormed file hs
    rw [hlex] at h
    exact h _ List.mem_cons_self rfl
  rw [lex_of_wellFormed hs] at h
  exact ⟨hs, fun t ht => h t (List.mem_append_left _ ht)⟩

/-- A source in UTF-8 with valid tokens in front of its end has valid tokens only. -/
lemma valid_lex (hs : Utf8.WellFormed source)
    (hvalid : ∀ t ∈ tokensOfText file source, t.kind ≠ .invalid) :
    ∀ t ∈ lex file source, t.kind ≠ .invalid := by
  rw [lex_of_wellFormed hs, List.forall_mem_append, List.forall_mem_singleton]
  exact ⟨hvalid, Kind.noConfusion⟩

/-- A run over a source with valid tokens only writes all that is kept of it, and nothing is
reported. -/
lemma Minifier.run_ofSource_of_valid (m : Minifier) (names : Renaming) (log : Option Log)
    (hvalid : ∀ t ∈ lex file source, t.kind ≠ .invalid) :
    let written := thread Minifier.write (m, names) (keptTokens file source)
    let lexer := Lexer.ofSource file source log
    m.run names lexer =
        ⟨some written.1, { written.2.1 with finished := true }, written.2.2, lexer.readAll.2⟩ ∧
      lexer.readAll.2.log = log := by
  have hread := readAll_ofSource file source log
  have hlog : (Lexer.ofSource file source log).log = log := by
    simp [Lexer.ofSource, Lexer.log, Function.comp_def]
  rw [← hread] at hvalid
  obtain ⟨hrun, hlogs⟩ := Minifier.run_of_valid m names hvalid
  rw [hread] at hrun
  exact ⟨hrun, hlogs.trans hlog⟩

/-- A source in UTF-8 with valid tokens only is accepted, and nothing is reported. -/
lemma minifyRun_of_valid (hs : Utf8.WellFormed source)
    (hvalid : ∀ t ∈ tokensOfText file source, t.kind ≠ .invalid) :
    (minifyRun ptr64 file source).pieces =
        some (thread Minifier.write ({}, { ptr64 }) (keptTokens file source)).1 ∧
      (minifyRun ptr64 file source).lexer.log = some [] := by
  obtain ⟨hrun, hlog⟩ :=
    Minifier.run_ofSource_of_valid {} { ptr64 } (some []) (valid_lex hs hvalid)
  rw [minifyRun, hrun]
  exact ⟨rfl, hlog⟩

/-- The sources that are accepted are those in UTF-8 with valid tokens only. -/
lemma valid_of_minifyRun (h : (minifyRun ptr64 file source).pieces = some E) :
    Utf8.WellFormed source ∧ ∀ t ∈ tokensOfText file source, t.kind ≠ .invalid := by
  have hvalid := Minifier.valid_of_run _ _ h
  rw [readAll_ofSource] at hvalid
  exact valid_of_lex hvalid

/-- What comes of a source that is accepted. -/
theorem minifyRun_eq_some_iff :
    (minifyRun ptr64 file source).pieces = some E ↔
      Utf8.WellFormed source ∧ (∀ t ∈ tokensOfText file source, t.kind ≠ .invalid) ∧
        E = (thread Minifier.write ({}, { ptr64 }) (keptTokens file source)).1 := by
  constructor
  · intro h
    obtain ⟨hs, hvalid⟩ := valid_of_minifyRun h
    rw [(minifyRun_of_valid hs hvalid).1] at h
    exact ⟨hs, hvalid, (Option.some.inj h).symm⟩
  · rintro ⟨hs, hvalid, rfl⟩
    exact (minifyRun_of_valid hs hvalid).1

/-- The output is the text of what was written. -/
lemma join_eq_output (h : (minifyRun ptr64 file source).pieces = some E) {output : Bytes}
    (houtput : (minify ptr64 file source).1 = some output) : Piece.join E = output := by
  rw [minify, h] at houtput
  exact Option.some.inj houtput

/-- What is written is laid out, with one piece for each token that is kept. -/
theorem laid_of_minifyRun (h : (minifyRun ptr64 file source).pieces = some E) :
    Laid .invalid false E ∧ E.map Piece.kind = (keptTokens file source).map Token.writtenKind := by
  obtain ⟨hs, hvalid, rfl⟩ := minifyRun_eq_some_iff.1 h
  obtain ⟨hsound, hlines⟩ := isSound_tokensOfText hs hvalid
  rw [keptTokens_eq hs]
  refine laid_thread ?_ ?_ (List.Pairwise.filter _ hlines) {} (Renaming.proper_empty ptr64)
  · exact fun t ht => hsound t (List.mem_filter.1 ht).1
  · intro t ht
    simpa using (List.mem_filter.1 ht).2

/-- What is written is in UTF-8. -/
lemma Laid.wellFormed_join {last : Kind} {lastQuoted : Bool} {ps : List Piece}
    (h : Laid last lastQuoted ps) : Utf8.WellFormed (Piece.join ps) := by
  induction h with
  | nil => exact Utf8.wellFormed_nil
  | @cons last lastQuoted p ps hp _ _ _ ih =>
    rw [Piece.join_cons]
    refine Utf8.WellFormed.append ?_ ih
    unfold Piece.bytes
    split
    · exact ((Utf8.wellFormed_append_cons_iff (a := []) (by decide)).2
        ⟨Utf8.wellFormed_nil, hp.wellFormed⟩)
    · exact hp.wellFormed

end ZigGolf
