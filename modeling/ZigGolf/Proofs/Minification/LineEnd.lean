import ZigGolf.Proofs.Lexing.Fault
import ZigGolf.Proofs.Minification.Formatting
import ZigGolf.Proofs.Storage.LineEnd

/-!
# Line ends do not matter

To minify a text with normalised line ends is to minify the text and to normalise the line ends of
what is written (`minify_normalizeLineEnds`).  A carriage return in front of a line feed is a blank,
or the last byte of a comment or of a line of a multiline string; anywhere else it makes a token
invalid that the line feed alone makes invalid as well.  Only lines of multiline strings are written
with their line ends, so it is there that the two outputs differ.
-/

namespace ZigGolf

variable {k : Kind} {t t' r r' s u w : Bytes} {b : UInt8}

/-! ### Texts that look alike to the token in front of them -/

/-- Two texts that a token without a comment cannot tell apart by looking ahead: bytes at their
front are seen in the one as in the other, line ends apart, and both go on as a fraction or both do
not. -/
structure AlikeBehind (r r' : Bytes) : Prop where
  nil_iff : r = [] ↔ r' = []
  head?_any : ∀ p : UInt8 → Bool, p carriageReturn = false → p lineFeed = false →
    r.head?.any p = r'.head?.any p
  startsFraction : ∀ base : Base, base.startsFraction r = base.startsFraction r'

lemma AlikeBehind.symm (h : AlikeBehind r r') : AlikeBehind r' r :=
  ⟨h.nil_iff.symm, fun p hcr hlf => (h.head?_any p hcr hlf).symm,
    fun base => (h.startsFraction base).symm⟩

/-- A fraction starts with a period. -/
lemma startsFraction_cons_of_ne (base : Base) (hb : b ≠ byte '.') (s : Bytes) :
    base.startsFraction (b :: s) = false := by
  cases s with
  | nil => rfl
  | cons c s => simp [Base.startsFraction, hb]

/-- A text looks like itself with normalised line ends. -/
lemma alikeBehind_normalizeLineEnds (r : Bytes) : AlikeBehind r (normalizeLineEnds r) := by
  refine ⟨normalizeLineEnds_eq_nil_iff.symm, fun p hcr hlf => ?_, fun base => ?_⟩
  · induction r using lineEnds_induction with
    | nil => rw [normalizeLineEnds_nil]
    | pair r => simp [hcr, hlf]
    | cons b r hb => simp [normalizeLineEnds_cons hb]
  · induction r using lineEnds_induction with
    | nil => rw [normalizeLineEnds_nil]
    | pair r =>
      rw [normalizeLineEnds_pair, startsFraction_cons_of_ne base (by decide),
        startsFraction_cons_of_ne base (by decide)]
    | cons b r hb =>
      rw [normalizeLineEnds_cons hb]
      -- behind the period a line end of two bytes is no digit, and neither is one of one byte
      have hdigit : ∀ c : UInt8, isNamePart c = false → base.isDigit c = false := by
        intro c hc
        by_contra hnot
        rw [base.isNamePart_of_isDigit c (by simpa using hnot)] at hc
        exact absurd hc (by decide)
      induction r using lineEnds_induction with
      | nil => rw [normalizeLineEnds_nil]
      | pair r =>
        rw [normalizeLineEnds_pair]
        simp [Base.startsFraction, hdigit carriageReturn rfl, hdigit lineFeed rfl]
      | cons c r hc =>
        rw [normalizeLineEnds_cons hc]
        rfl

/-- A token that is no comment is one in front of any text that looks alike. -/
lemma Reads.of_alikeBehind (h : Reads k t r) (hdoc : k.isDocComment = false)
    (halike : AlikeBehind r r') : Reads k t r' := by
  have hname := halike.head?_any isNamePart rfl rfl
  cases h with
  | name ht hr => exact .name ht (hname ▸ hr)
  | builtin ht hr => exact .builtin ht (hname ▸ hr)
  | quotedName hbody => exact .quotedName hbody
  | string hbody => exact .string hbody
  | char hbody => exact .char hbody
  | line hline => exact .line hline
  | lastLine hline =>
    rw [halike.nil_iff.1 rfl]
    exact .lastLine hline
  | number hb hk halone hr hfraction =>
    refine .number hb hk halone (hname ▸ hr) fun hint => ?_
    rw [← halike.startsFraction]
    exact hfraction hint
  | @punct p r hjoins =>
    have hany := halike.head?_any (fun b => Punctuation.joins (p.spelling ++ [b]))
      (Punctuation.joins_blank rfl p.spelling) (Punctuation.joins_blank rfl p.spelling)
    refine .punct fun b hb => ?_
    have hr : r.head?.any (fun b => Punctuation.joins (p.spelling ++ [b])) = false := by
      cases hhead : r.head? with
      | none => rfl
      | some c => exact hjoins c hhead
    rw [hr, Option.mem_def.1 hb] at hany
    exact hany.symm
  | docComment => simp [Kind.isDocComment] at hdoc
  | containerDocComment => simp [Kind.isDocComment] at hdoc

/-! ### Tokens with line ends -/

/-- No token ends with a blank but comments and lines of multiline strings. -/
lemma Reads.isBlank_getLast? (h : Reads k t r) (hdoc : k.isDocComment = false)
    (hmulti : k ≠ .multilineStringLine) : ∀ b ∈ t.getLast?, isBlank b = false := by
  have hplain : ∀ {t : Bytes}, (∀ b ∈ t, isPlain b = true) →
      ∀ b ∈ t.getLast?, isBlank b = false :=
    fun ht b hb => isBlank_eq_false_of_isPlain b (ht b (List.mem_of_getLast? hb))
  have hlast : ∀ {t : Bytes} {c : UInt8}, isBlank c = false →
      ∀ b ∈ (t ++ [c]).getLast?, isBlank b = false := by
    intro t c hc b hb
    rw [List.getLast?_concat] at hb
    rwa [← Option.some.inj hb]
  cases h with
  | name ht => exact hplain (isPlain_of_isPlainName ht)
  | builtin ht =>
    refine hplain fun b hb => ?_
    rcases List.mem_cons.1 hb with rfl | hb
    · rfl
    · exact isPlain_of_isPlainName ht b hb
  | @quotedName body => exact hlast (t := atSign :: quote :: body) rfl
  | @string body => exact hlast (t := quote :: body) rfl
  | @char body => exact hlast (t := apostrophe :: body) rfl
  | line => exact absurd rfl hmulti
  | lastLine => exact absurd rfl hmulti
  | number _ _ halone => exact hplain (isPlain_of_cutNumber halone)
  | @punct p => exact hplain p.isPlain_of_mem
  | docComment => simp [Kind.isDocComment] at hdoc
  | containerDocComment => simp [Kind.isDocComment] at hdoc

/-- No token holds a line feed but a line of a multiline string. -/
lemma Reads.lineFeed_notMem (h : Reads k t r) (hutf8 : Utf8.WellFormed t)
    (hdoc : k.isDocComment = false) (hmulti : k ≠ .multilineStringLine) : lineFeed ∉ t := by
  have hlast := h.isBlank_getLast? hdoc hmulti
  have hdrop := h.lineFeed_notMem_dropLast hutf8
  intro hmem
  have hne := h.ne_nil
  rw [← List.dropLast_append_getLast hne, List.mem_append, List.mem_singleton] at hmem
  rcases hmem with hmem | hmem
  · exact hdrop hmem
  · have hfeed := hlast lineFeed (by rw [List.getLast?_eq_getLast_of_ne_nil hne, hmem]; rfl)
    exact absurd hfeed (by decide)

/-- With normalised line ends a token that is no comment is a token again, and its end stays where
it is. -/
lemma Reads.normalized (h : Reads k t r) (hutf8 : Utf8.WellFormed t)
    (hdoc : k.isDocComment = false) :
    Reads k (normalizeLineEnds t) (normalizeLineEnds r) ∧
      normalizeLineEnds (t ++ r) = normalizeLineEnds t ++ normalizeLineEnds r := by
  by_cases hmulti : k = .multilineStringLine
  · subst hmulti
    obtain ⟨line, hline, rfl | ⟨rfl, rfl⟩⟩ := h.multilineStringLine_cases
    · obtain ⟨line', hline', heq⟩ := exists_normalizeLineEnds_line hline []
      rw [normalizeLineEnds_nil] at heq
      constructor
      · rw [normalizeLineEnds_cons_of_ne (by decide), normalizeLineEnds_cons_of_ne (by decide), heq]
        exact .line hline'
      · apply normalizeLineEnds_append
        rw [← List.cons_append, ← List.cons_append, List.getLast?_concat]
        simp +decide
    · have hmem : lineFeed ∉ backslash :: backslash :: line := by simp +decide [hline]
      rw [List.append_nil, normalizeLineEnds_of_notMem hmem, normalizeLineEnds_nil, List.append_nil]
      exact ⟨h, rfl⟩
  · rw [normalizeLineEnds_append, normalizeLineEnds_of_notMem
      (h.lineFeed_notMem hutf8 hdoc hmulti)]
    · exact ⟨h.of_alikeBehind hdoc (alikeBehind_normalizeLineEnds r), rfl⟩
    · rintro ⟨hlast, -⟩
      exact absurd (h.isBlank_getLast? hdoc hmulti _ hlast) (by decide)

/-- A token at the front of a text with normalised line ends comes of a token at the front of the
text. -/
lemma Reads.exists_of_normalized (h : Reads k t' r') (hutf8 : Utf8.WellFormed t')
    (hdoc : k.isDocComment = false) (hs : normalizeLineEnds s = t' ++ r') :
    ∃ t r, s = t ++ r ∧ Reads k t r := by
  by_cases hmulti : k = .multilineStringLine
  · subst hmulti
    obtain ⟨line, hline, rfl | ⟨rfl, rfl⟩⟩ := h.multilineStringLine_cases
    · have hmem : lineFeed ∉ backslash :: backslash :: line := by simp +decide [hline]
      have hsplit : normalizeLineEnds s = backslash :: backslash :: line ++ lineFeed :: r' := by
        rw [hs]
        simp
      obtain ⟨s', rfl, hs'⟩ := exists_of_normalizeLineEnds_eq_append hsplit hmem
      obtain ⟨r, -, rfl | rfl⟩ := exists_of_normalizeLineEnds_eq_lineFeed_cons hs'
      · exact ⟨backslash :: backslash :: (line ++ [lineFeed]), r, by simp, .line hline⟩
      · -- the carriage return belongs to the line
        have hline' : lineFeed ∉ line ++ [carriageReturn] := by simp +decide [hline]
        exact ⟨backslash :: backslash :: (line ++ [carriageReturn] ++ [lineFeed]), r, by simp,
          .line hline'⟩
    · have hmem : lineFeed ∉ backslash :: backslash :: line := by simp +decide [hline]
      obtain ⟨r, rfl, hr⟩ := exists_of_normalizeLineEnds_eq_append hs hmem
      rw [normalizeLineEnds_eq_nil_iff.1 hr]
      exact ⟨backslash :: backslash :: line, [], rfl, .lastLine hline⟩
  · obtain ⟨r, rfl, rfl⟩ := exists_of_normalizeLineEnds_eq_append hs
      (h.lineFeed_notMem hutf8 hdoc hmulti)
    exact ⟨t', r, rfl, h.of_alikeBehind hdoc (alikeBehind_normalizeLineEnds r).symm⟩

/-! ### Fillers with line ends -/

/-- Fillers stay fillers. -/
lemma IsFiller.normalized (h : IsFiller w) : IsFiller (normalizeLineEnds w) := by
  induction h with
  | nil =>
    rw [normalizeLineEnds_nil]
    exact .nil
  | @blank b w hb _ ih =>
    by_cases hpair : b = carriageReturn ∧ w.head? = some lineFeed
    · obtain ⟨rfl, hhead⟩ := hpair
      obtain ⟨w, rfl⟩ := List.head?_eq_some_iff.1 hhead
      rw [normalizeLineEnds_cons_of_ne (by decide)] at ih
      rwa [normalizeLineEnds_pair]
    · rw [normalizeLineEnds_cons hpair]
      exact .blank hb ih
  | @comment line w hline _ ih =>
    obtain ⟨line', hline', heq⟩ := exists_normalizeLineEnds_line hline w
    rw [normalizeLineEnds_cons_of_ne (by decide), normalizeLineEnds_cons_of_ne (by decide), heq]
    exact .comment hline' ih

/-- What stands behind a filler in UTF-8 text is UTF-8 text. -/
lemma IsFiller.wellFormed (h : IsFiller w) (hs : Utf8.WellFormed (w ++ r)) :
    Utf8.WellFormed r := by
  induction h with
  | nil => exact hs
  | @blank b w hb _ ih =>
    exact ih ((IsGap.blank hb .nil : IsGap [b] (w ++ r)).wellFormed hs)
  | @comment line w _ _ ih =>
    have hsplit : slash :: slash :: (line ++ lineFeed :: w) ++ r =
        slash :: slash :: line ++ lineFeed :: (w ++ r) := by simp
    rw [hsplit, Utf8.wellFormed_append_cons_iff (by decide)] at hs
    exact ih hs.2

/-- A text is a filler and what stands behind it, which starts with no blank, and if it starts with
a comment it is a comment and nothing else. -/
lemma exists_filler (s : Bytes) :
    ∃ w u, s = w ++ u ∧ IsFiller w ∧ (∀ b ∈ u.head?, isBlank b = false) ∧
      (startsComment u = true → ∃ line, lineFeed ∉ line ∧ u = slash :: slash :: line) := by
  induction hn : s.length using Nat.strongRecOn generalizing s with
  | _ n ih =>
    by_cases hcomment : startsComment s = true
    · match s, hcomment with
      | a :: b :: s, hcomment =>
        obtain ⟨rfl, rfl⟩ : a = slash ∧ b = slash := by simpa [startsComment] using hcomment
        have hline := lineFeed_notMem_firstLine s
        have hsplit := firstLine_append_afterFirstLine s
        cases hafter : afterFirstLine s with
        | nil =>
          rw [hafter, List.append_nil] at hsplit
          rw [hsplit] at hline
          refine ⟨[], _, rfl, .nil, ?_, fun _ => ⟨s, hline, rfl⟩⟩
          intro c hc
          rw [← Option.some.inj hc]
          rfl
        | cons c rest =>
          obtain rfl := eq_lineFeed_of_mem_head?_afterFirstLine s c (by rw [hafter]; rfl)
          rw [hafter] at hsplit
          have hlt : rest.length < n := by
            rw [← hn, ← hsplit]
            simp only [List.length_cons, List.length_append]
            omega
          obtain ⟨w, u, hu, hw, hrest⟩ := ih rest.length hlt rest rfl
          refine ⟨_, u, ?_, .comment hline hw, hrest⟩
          calc slash :: slash :: s = slash :: slash :: (firstLine s ++ lineFeed :: (w ++ u)) := by
                rw [← hu, hsplit]
            _ = slash :: slash :: (firstLine s ++ lineFeed :: w) ++ u := by simp
    · by_cases hblank : ∀ b ∈ s.head?, isBlank b = false
      · exact ⟨[], s, rfl, .nil, hblank, fun h => absurd h hcomment⟩
      · push Not at hblank
        obtain ⟨b, hb, hblank⟩ := hblank
        obtain ⟨s, rfl⟩ := List.head?_eq_some_iff.1 hb
        obtain ⟨w, u, rfl, hw, hrest⟩ := ih s.length (by rw [← hn]; simp) s rfl
        exact ⟨b :: w, u, rfl, .blank (by simpa using hblank) hw, hrest⟩

/-! ### Words with line ends -/

/-- A comment starts where one started before. -/
lemma startsComment_normalizeLineEnds (b : UInt8) (s : Bytes) :
    startsComment (b :: normalizeLineEnds s) = startsComment (b :: s) := by
  induction s using lineEnds_induction with
  | nil => rw [normalizeLineEnds_nil]
  | pair s =>
    rw [normalizeLineEnds_pair]
    rfl
  | cons c s hc =>
    rw [normalizeLineEnds_cons hc]
    rfl

/-- A comment that is a token starts as a comment. -/
lemma Reads.startsComment_of_isDocComment (h : Reads k t r) (hdoc : k.isDocComment = true) :
    startsComment (t ++ r) = true := by
  have hword : ∀ {k : Kind}, k.isWordLike = true → k.isDocComment = false := by
    intro k hk
    cases k <;> simp_all [Kind.isWordLike, Kind.isDocComment]
  cases h with
  | @name t =>
    rw [hword (Kind.isWordLike_ofName t).1] at hdoc
    simp at hdoc
  | number _ hk halone =>
    rcases kind_of_cutNumber hk halone with rfl | rfl <;> simp [Kind.isDocComment] at hdoc
  | docComment => rfl
  | containerDocComment => rfl
  | _ => simp [Kind.isDocComment] at hdoc

/-- Where neither a blank nor a comment stands, the text starts with a token that is kept, valid or
not. -/
lemma exists_reads_or_invalid (hblank : isBlank b = false) (hc : startsComment (b :: s) = false) :
    (∃ l r, nextLexeme? (b :: s) = some (l, r) ∧ l.kind = .invalid) ∨
      ∃ k t r, b :: s = t ++ r ∧ Reads k t r ∧ k.isDocComment = false := by
  have hnone := gapItem?_of_not_startsComment hblank hc
  have happend := cutToken_append b s
  rcases hcut : cutToken b s with ⟨l, r⟩
  by_cases hk : l.kind = .invalid
  · left
    exact ⟨l, r, by rw [nextLexeme?_of_none hnone, hcut], hk⟩
  · right
    obtain ⟨hgap, hreads⟩ := reads_cutToken hnone hcut hk
    rw [hcut] at happend
    dsimp only at happend
    rw [hgap, List.nil_append] at happend
    refine ⟨l.kind, l.text, r, happend.symm, hreads, ?_⟩
    by_contra hdoc
    rw [← happend, hreads.startsComment_of_isDocComment (by simpa using hdoc)] at hc
    simp at hc

/-- An invalid lexeme at the front of a text is among its words. -/
lemma exists_invalid_word {l : Lexeme} (h : nextLexeme? s = some (l, r)) (hk : l.kind = .invalid) :
    ∃ p ∈ words s, p.1 = .invalid := by
  refine ⟨(l.kind, l.text), ?_, hk⟩
  rw [words_of_some h, hk]
  exact List.mem_append_left _ (List.mem_singleton.2 rfl)

/-- A comment that ends the text adds nothing. -/
lemma words_comment_eq_nil {line : Bytes} (hline : lineFeed ∉ line) :
    words (slash :: slash :: line) = [] := by
  have hempty := words_comment (r := []) hline (by simp)
  rw [List.append_nil] at hempty
  rw [hempty, words, lexemes_nil]
  rfl

/-- An invalid token at the front of a text is one with normalised line ends, too. -/
lemma exists_invalid_word_normalized {l : Lexeme} (hs : Utf8.WellFormed (b :: s))
    (hblank : isBlank b = false) (hc : startsComment (b :: s) = false)
    (hnext : nextLexeme? (b :: s) = some (l, r)) (hk : l.kind = .invalid) :
    ∃ p ∈ words (normalizeLineEnds (b :: s)), p.1 = .invalid := by
  have hnormal : normalizeLineEnds (b :: s) = b :: normalizeLineEnds s := by
    apply normalizeLineEnds_cons_of_ne
    rintro rfl
    exact absurd hblank (by decide)
  rw [hnormal]
  rw [← startsComment_normalizeLineEnds] at hc
  rcases exists_reads_or_invalid hblank hc with ⟨l', r', hnext', hk'⟩ | ⟨k, t', r', hsplit, h, hdoc⟩
  · exact exists_invalid_word hnext' hk'
  · -- a valid token here would come of a valid token there
    rw [← wellFormed_normalizeLineEnds_iff, hnormal, hsplit] at hs
    obtain ⟨t, r, hsplit', hreads⟩ :=
      h.exists_of_normalized (hs.cut h.ascii_cut).1 hdoc (hnormal.trans hsplit)
    rw [hsplit', hreads.nextLexeme?_eq] at hnext
    obtain ⟨rfl, -⟩ := Prod.mk.inj (Option.some.inj hnext)
    exact absurd hk hreads.kind_ne_invalid

/-- What is kept of a text with normalised line ends is what is kept of the text, with normalised
line ends, unless there are invalid words in both. -/
lemma words_normalizeLineEnds (hs : Utf8.WellFormed s) :
    words (normalizeLineEnds s) = (words s).map (fun p => (p.1, normalizeLineEnds p.2)) ∨
      (∃ p ∈ words s, p.1 = .invalid) ∧ ∃ p ∈ words (normalizeLineEnds s), p.1 = .invalid := by
  induction hn : s.length using Nat.strongRecOn generalizing s with
  | _ n ih =>
    obtain ⟨w, u, rfl, hw, hblank, hcomment⟩ := exists_filler s
    have hu := hw.wellFormed hs
    rw [normalizeLineEnds_append fun h => absurd (hblank _ h.2) (by decide), hw.words_append,
      hw.normalized.words_append]
    rcases u with - | ⟨b, u⟩
    · left
      rw [normalizeLineEnds_nil, words, lexemes_nil]
      rfl
    by_cases hc : startsComment (b :: u) = true
    · -- nothing but a comment is left
      left
      obtain ⟨line, hline, hu⟩ := hcomment hc
      have hmem : lineFeed ∉ slash :: slash :: line := by simp +decide [hline]
      rw [hu, normalizeLineEnds_of_notMem hmem, words_comment_eq_nil hline]
      rfl
    have hb : isBlank b = false := hblank b rfl
    rw [Bool.not_eq_true] at hc
    rcases exists_reads_or_invalid hb hc with ⟨l, r, hnext, hk⟩ | ⟨k, t, r, hsplit, hreads, hdoc⟩
    · right
      exact ⟨exists_invalid_word hnext hk, exists_invalid_word_normalized hu hb hc hnext hk⟩
    · rw [hsplit] at hu
      obtain ⟨ht, hr⟩ := hu.cut hreads.ascii_cut
      obtain ⟨hreads', happend⟩ := hreads.normalized ht hdoc
      have hlt : r.length < n := by
        have hpos := List.length_pos_iff.2 hreads.ne_nil
        rw [← hn, hsplit]
        simp only [List.length_append]
        omega
      rw [hsplit, happend, hreads.words_append, hreads'.words_append, hdoc]
      rcases ih r.length hlt hr rfl with heq | ⟨⟨p, hp, hpk⟩, q, hq, hqk⟩
      · left
        rw [heq]
        rfl
      · right
        exact ⟨⟨p, List.mem_append_right _ hp, hpk⟩, q, List.mem_append_right _ hq, hqk⟩

/-- Normalising line ends neither makes nor mends an invalid word. -/
lemma forall_words_normalizeLineEnds_iff (hs : Utf8.WellFormed s) :
    (∀ p ∈ words (normalizeLineEnds s), p.1 ≠ .invalid) ↔ ∀ p ∈ words s, p.1 ≠ .invalid := by
  rcases words_normalizeLineEnds hs with heq | ⟨⟨p, hp, hpk⟩, q, hq, hqk⟩
  · rw [heq, List.forall_mem_map]
  · exact ⟨fun h => absurd hqk (h q hq), fun h => absurd hpk (h p hp)⟩

/-! ### Writing with line ends -/

/-- A token with normalised line ends. -/
def Token.normalized (t : Token) : Token := { t with lexeme := normalizeLineEnds t.lexeme }

/-- A piece with normalised line ends. -/
def Piece.normalized (p : Piece) : Piece := { p with text := normalizeLineEnds p.text }

/-- Line ends of a token are normalised in what is written for it, and nothing else changes. -/
lemma write_normalized (m : Minifier) {names : Renaming} (hnames : names.Proper) {t : Token}
    (ht : t.IsSound) (hdoc : t.kind.isDocComment = false) :
    Minifier.write (m, names) t.normalized =
      ((Minifier.write (m, names) t).1.normalized, (Minifier.write (m, names) t).2) := by
  by_cases hmulti : t.kind = .multilineStringLine
  · -- the line is written as it is
    have hspell : ∀ u : Token, u.kind = .multilineStringLine →
        m.spell names u = ((.multilineStringLine, u.lexeme), names) := by
      intro u hu
      rw [spell_of_other names (by simp [hu]) (by simp [hu]), hu]
    simp only [Minifier.write, hspell t hmulti, hspell t.normalized hmulti]
    rfl
  · -- neither the token nor what is written for it holds a line end
    have htoken : t.normalized = t := by
      rw [Token.normalized, normalizeLineEnds_of_notMem
        (ht.reads.lineFeed_notMem ht.wellFormed hdoc hmulti)]
    obtain ⟨hreads, hutf8⟩ := reads_spell m hnames ht
    have hmem : lineFeed ∉ (m.spell names t).1.2 := by
      refine hreads.lineFeed_notMem hutf8 ?_ fun h => ?_
      · rw [kind_spell, Token.writtenKind]
        split
        · rfl
        · exact hdoc
      · exact hmulti (lexeme_of_spell_multiline m names t h).1
    rw [htoken]
    simp only [Minifier.write, Piece.normalized, normalizeLineEnds_of_notMem hmem]

/-- For tokens with normalised line ends the same is written, with normalised line ends. -/
lemma thread_write_normalized {ts : List Token} (hsound : ∀ t ∈ ts, t.IsSound)
    (hdoc : ∀ t ∈ ts, t.kind.isDocComment = false) (m : Minifier) {names : Renaming}
    (hnames : names.Proper) :
    (thread Minifier.write (m, names) (ts.map Token.normalized)).1 =
      (thread Minifier.write (m, names) ts).1.map Piece.normalized := by
  induction ts generalizing m names with
  | nil => rfl
  | cons t ts ih =>
    rw [List.map_cons, thread_cons, thread_cons, List.map_cons,
      write_normalized m hnames (hsound t List.mem_cons_self) (hdoc t List.mem_cons_self)]
    exact congrArg _ (ih (fun t' ht' => hsound t' (List.mem_cons_of_mem t ht'))
      (fun t' ht' => hdoc t' (List.mem_cons_of_mem t ht')) _ (proper_spell m hnames t))

variable {last : Kind} {lastQuoted : Bool} {ps : List Piece}

/-- What is written never starts with a line feed. -/
lemma Laid.head?_join_ne (h : Laid last lastQuoted ps) :
    (Piece.join ps).head? ≠ some lineFeed := by
  cases h with
  | nil => simp
  | @cons _ _ p ps hp =>
    rw [Piece.join_cons, Piece.head?_bytes_append hp]
    split
    · simp +decide
    · intro hhead
      exact absurd (hp.reads.isBlank_head? hhead) (by decide)

/-- The space in front of a piece has no line end. -/
lemma Piece.bytes_normalized (p : Piece) : p.normalized.bytes = normalizeLineEnds p.bytes := by
  unfold Piece.bytes Piece.normalized
  dsimp only
  split
  · rw [normalizeLineEnds_cons_of_ne (by decide)]
  · rfl

/-- No line end of two bytes stands across two pieces. -/
lemma Laid.join_normalized (h : Laid last lastQuoted ps) :
    Piece.join (ps.map Piece.normalized) = normalizeLineEnds (Piece.join ps) := by
  induction h with
  | nil => simp
  | cons _ _ _ hrest ih =>
    rw [List.map_cons, Piece.join_cons, Piece.join_cons, ih, Piece.bytes_normalized,
      normalizeLineEnds_append fun hpair => hrest.head?_join_ne hpair.2]

/-! ### Result -/

/-- The pieces of a source with normalised line ends are those of the source, with normalised line
ends. -/
lemma thread_keptTokens_normalizeLineEnds {ptr64 : Bool} {file : UInt32}
    (hs : Utf8.WellFormed s) (hvalid : ∀ t ∈ tokensOfText file s, t.kind ≠ .invalid)
    (hwords : words (normalizeLineEnds s) =
      (words s).map fun p => (p.1, normalizeLineEnds p.2)) :
    (thread Minifier.write ({}, { ptr64 }) (keptTokens file (normalizeLineEnds s))).1 =
      (thread Minifier.write ({}, { ptr64 }) (keptTokens file s)).1.map Piece.normalized := by
  obtain ⟨hsound, -⟩ := isSound_tokensOfText hs hvalid
  have htokens : (keptTokens file (normalizeLineEnds s)).map (fun t => (t.kind, t.lexeme)) =
      ((keptTokens file s).map Token.normalized).map fun t => (t.kind, t.lexeme) := by
    rw [map_keptTokens file (wellFormed_normalizeLineEnds_iff.2 hs), hwords,
      ← map_keptTokens file hs, List.map_map, List.map_map]
    rfl
  rw [thread_write_congr _ htokens, keptTokens_eq hs]
  refine thread_write_normalized ?_ ?_ {} (Renaming.proper_empty ptr64)
  · exact fun t ht => hsound t (List.mem_filter.1 ht).1
  · intro t ht
    simpa using (List.mem_filter.1 ht).2

/-- A source with normalised line ends is accepted if and only if the source is, and the text that
is written for it is the text that is written for the source, with normalised line ends. -/
theorem minify_normalizeLineEnds (ptr64 : Bool) (file : UInt32) (source : Bytes) :
    (minify ptr64 file (normalizeLineEnds source)).1 =
      (minify ptr64 file source).1.map normalizeLineEnds := by
  cases h : (minify ptr64 file source).1 with
  | none =>
    have hnot : ¬ (minify ptr64 file source).1.isSome = true := by simp [h]
    rw [Option.map_none, ← Option.not_isSome_iff_eq_none, isSome_minify_iff,
      wellFormed_normalizeLineEnds_iff]
    rintro ⟨hs, hvalid⟩
    rw [forall_words_normalizeLineEnds_iff hs] at hvalid
    exact hnot (isSome_minify_iff.2 ⟨hs, hvalid⟩)
  | some output =>
    obtain ⟨E, hE, rfl⟩ := Option.map_eq_some_iff.1 h
    have hlaid := (laid_of_minifyRun hE).1
    obtain ⟨hs, hwordsValid⟩ := isSome_minify_iff.1 (Option.isSome_iff_exists.2 ⟨_, h⟩)
    obtain ⟨-, hvalid, rfl⟩ := minifyRun_eq_some_iff.1 hE
    rcases words_normalizeLineEnds hs with hwords | ⟨⟨p, hp, hpk⟩, -⟩
    · have hvalid' : ∀ t ∈ tokensOfText file (normalizeLineEnds source), t.kind ≠ .invalid := by
        rw [forall_tokensOfText_iff file (P := fun p => p.1 ≠ .invalid),
          ← forall_words_ne_invalid_iff, forall_words_normalizeLineEnds_iff hs]
        exact hwordsValid
      rw [minify, (minifyRun_of_valid (wellFormed_normalizeLineEnds_iff.2 hs) hvalid').1,
        thread_keptTokens_normalizeLineEnds hs hvalid hwords, Option.map_some,
        hlaid.join_normalized]
      rfl
    · exact absurd hpk (hwordsValid p hp)

/-- The line end of the first line of a multiline string is normalised in what is written, and the
line end between the other tokens is not written at all. -/
example :
    minify true 0 (ascii "a =\r\n\\\\b\r\n;") = (some (ascii "a=\\\\b\r\n;"), []) := by
  decide +kernel

end ZigGolf
