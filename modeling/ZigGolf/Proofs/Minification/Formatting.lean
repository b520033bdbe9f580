import ZigGolf.Proofs.Minification.Run

/-!
# Formatting does not matter

Blanks and comments of any sort may be put in front of any token of a source without a change to
what is written (`minify_insert`).  What is put in starts with a blank, which ends the token before
it as well as that token's own successor did (`Reads.of_blank`).  Of what is put in only doc
comments are tokens, and these are not kept.
-/

namespace ZigGolf

variable {a c g r s w : Bytes} {b : UInt8} {k : Kind} {t : Bytes}

/-! ### Words -/

/-- The kinds and texts of what is kept of a text: its lexemes, without doc comments. -/
def words (s : Bytes) : List (Kind × Bytes) :=
  ((lexemes s).filter fun l => !l.kind.isDocComment).map fun l => (l.kind, l.text)

/-- Kinds alone tell what is kept. -/
lemma words_eq_filter (s : Bytes) :
    words s = ((lexemes s).map fun l => (l.kind, l.text)).filter fun p => !p.1.isDocComment := by
  rw [List.filter_map]
  rfl

/-- The words of a text are its first lexeme, unless it is a doc comment, and those of the rest. -/
lemma words_of_some {l : Lexeme} (h : nextLexeme? s = some (l, r)) :
    words s = (if l.kind.isDocComment then [] else [(l.kind, l.text)]) ++ words r := by
  rw [words, lexemes_of_some h, List.filter_cons]
  cases hdoc : l.kind.isDocComment with
  | true => simp [words]
  | false => simp [words]

/-- A gap in front of a text adds nothing to it. -/
lemma IsGap.words_append (h : IsGap g r) : words (g ++ r) = words r := by
  have hnext := h.nextLexeme?_append
  cases hr : nextLexeme? r with
  | none =>
    rw [hr] at hnext
    rw [words, words, lexemes_of_none hnext, lexemes_of_none hr]
  | some p =>
    rw [hr] at hnext
    rw [words_of_some hnext, words_of_some hr]

/-- A token in front of a text adds itself, unless it is a doc comment. -/
lemma Reads.words_append (h : Reads k t r) :
    words (t ++ r) = (if k.isDocComment then [] else [(k, t)]) ++ words r :=
  words_of_some h.nextLexeme?_eq

/-- The words of a source are its tokens that are kept. -/
lemma map_keptTokens (file : UInt32) (hs : Utf8.WellFormed s) :
    (keptTokens file s).map (fun t => (t.kind, t.lexeme)) = words s := by
  have hfilter : ∀ ts : List Token,
      (ts.filter fun t => !t.kind.isDocComment).map (fun t => (t.kind, t.lexeme)) =
        (ts.map fun t => (t.kind, t.lexeme)).filter fun p => !p.1.isDocComment := by
    intro ts
    rw [List.filter_map]
    rfl
  rw [keptTokens_eq hs, hfilter, map_tokensOfText, words_eq_filter]

/-- Invalid lexemes are kept. -/
lemma forall_words_ne_invalid_iff :
    (∀ p ∈ words s, p.1 ≠ .invalid) ↔ ∀ l ∈ lexemes s, l.kind ≠ .invalid := by
  rw [words, List.forall_mem_map]
  constructor
  · intro h l hl hkind
    exact h l (List.mem_filter.2 ⟨hl, by rw [hkind]; rfl⟩) hkind
  · intro h l hl
    exact h l (List.mem_filter.1 hl).1

/-! ### Fillers -/

/-- What may be put in behind a blank: blanks, and comments of any sort with the line feeds that end
them. -/
inductive IsFiller : Bytes → Prop
  | nil : IsFiller []
  | blank {b : UInt8} {w : Bytes} : isBlank b = true → IsFiller w → IsFiller (b :: w)
  | comment {line w : Bytes} : lineFeed ∉ line → IsFiller w →
      IsFiller (slash :: slash :: (line ++ lineFeed :: w))

/-- A blank is no part of any word. -/
lemma words_blank (hb : isBlank b = true) (s : Bytes) : words (b :: s) = words s :=
  (IsGap.blank hb .nil : IsGap [b] s).words_append

/-- A comment of any sort, up to the end of its line, adds nothing to what is kept of a text. -/
lemma words_comment {line : Bytes} (hline : lineFeed ∉ line) (hend : ∀ b ∈ r.head?, b = lineFeed) :
    words (slash :: slash :: line ++ r) = words r := by
  by_cases hdoc : startsDocComment (slash :: slash :: line ++ r) = true
  · -- a doc comment is a token, which is not kept
    have hmem : lineFeed ∉ slash :: slash :: line := by simp +decide [hline]
    have hkind : (cutDocComment (slash :: slash :: line ++ r)).1.isDocComment = true := by
      unfold cutDocComment
      split <;> rfl
    rw [words_of_some (nextLexeme?_docComment hdoc)]
    dsimp only [Lexeme.ofCut]
    rw [if_pos hkind, List.nil_append]
    exact congrArg words (firstLine_append hmem hend).2
  · rw [Bool.not_eq_true, List.cons_append, List.cons_append,
      startsDocComment_eq_false_iff hend] at hdoc
    have hgap : IsGap (slash :: slash :: (line ++ [])) r :=
      .comment ⟨hline, hdoc.1, hdoc.2⟩ hend .nil
    rw [List.append_nil] at hgap
    exact hgap.words_append

/-- A filler in front of a text adds nothing to what is kept of it. -/
lemma IsFiller.words_append (h : IsFiller w) (r : Bytes) : words (w ++ r) = words r := by
  induction h with
  | nil => rfl
  | blank hb _ ih => rw [List.cons_append, words_blank hb, ih]
  | @comment line w hline _ ih =>
    have htext : slash :: slash :: (line ++ lineFeed :: w) ++ r =
        slash :: slash :: line ++ lineFeed :: (w ++ r) := by simp
    rw [htext, words_comment hline (by simp), words_blank (by decide), ih]

/-! ### A blank behind a token -/

lemma isPlain_eq_false_of_isBlank (hb : isBlank b = true) : isPlain b = false := by
  by_contra hnot
  rw [isBlank_eq_false_of_isPlain b (by simpa using hnot)] at hb
  exact absurd hb (by decide)

/-- No blank stands in a name. -/
lemma isNamePart_eq_false_of_isBlank (hb : isBlank b = true) : isNamePart b = false := by
  by_contra hnot
  have hplain := isPlain_of_isNamePart b (by simpa using hnot)
  rw [isPlain_eq_false_of_isBlank hb] at hplain
  exact absurd hplain (by decide)

/-- No punctuation goes on with a blank. -/
lemma Punctuation.joins_blank (hb : isBlank b = true) (t : Bytes) :
    Punctuation.joins (t ++ [b]) = false := by
  by_contra hnot
  have hbyte := Punctuation.isPunctuationByte_of_joins (by simpa using hnot)
  simp [isPunctuationByte, isPlain_eq_false_of_isBlank hb] at hbyte

/-- No numeral goes on behind a blank. -/
lemma Base.startsFraction_blank (base : Base) (hb : isBlank b = true)
    (h : base.startsFraction (a ++ c) = false) (s : Bytes) :
    base.startsFraction (a ++ b :: s) = false := by
  by_contra hnot
  obtain ⟨digit, rest, hsplit, hdigit⟩ := base.exists_of_startsFraction (by simpa using hnot)
  match a with
  | [] =>
    obtain rfl : b = byte '.' := (List.cons.inj hsplit).1
    exact absurd hb (by decide)
  | [x] =>
    obtain rfl : b = digit := (List.cons.inj (List.cons.inj hsplit).2).1
    have hname := base.isNamePart_of_isDigit b hdigit
    rw [isNamePart_eq_false_of_isBlank hb] at hname
    exact absurd hname (by decide)
  | x :: y :: a => exact hnot h

/-- A token stays one if a blank is put in somewhere behind it, in front of another token. -/
lemma Reads.of_blank {x : UInt8} (h : Reads k t (a ++ x :: r)) (hx : isBlank x = false)
    (hb : isBlank b = true) (s : Bytes) : Reads k t (a ++ b :: s) := by
  -- the first byte behind the token is the blank or what it was
  have hhead : a = [] ∨ (a ++ b :: s).head? = (a ++ x :: r).head? := by
    cases a with
    | nil => exact .inl rfl
    | cons y a => exact .inr rfl
  have hstop : (a ++ x :: r).head?.any isNamePart = false →
      (a ++ b :: s).head?.any isNamePart = false := by
    intro hold
    rcases hhead with rfl | heq
    · exact isNamePart_eq_false_of_isBlank hb
    · rwa [heq]
  have hline : (∀ y ∈ (a ++ x :: r).head?, y = lineFeed) →
      ∀ y ∈ (a ++ b :: s).head?, y = lineFeed := by
    intro hold
    rcases hhead with rfl | heq
    · obtain rfl := hold x rfl
      exact absurd hx (by decide)
    · rwa [heq]
  generalize hr : a ++ x :: r = behind at h hstop hline hhead
  cases h with
  | name ht hname => exact .name ht (hstop hname)
  | builtin ht hname => exact .builtin ht (hstop hname)
  | quotedName hbody => exact .quotedName hbody
  | string hbody => exact .string hbody
  | char hbody => exact .char hbody
  | line hline' => exact .line hline'
  | lastLine => simp at hr
  | number hdigit hk halone hname hfraction =>
    refine .number hdigit hk halone (hstop hname) fun hint => ?_
    rw [← hr] at hfraction
    exact Base.startsFraction_blank _ hb (hfraction hint) s
  | @punct p _ hjoins =>
    refine .punct fun y hy => ?_
    rcases hhead with rfl | heq
    · obtain rfl : b = y := Option.some.inj hy
      exact Punctuation.joins_blank hb p.spelling
    · rw [heq] at hy
      exact hjoins y hy
  | docComment hmem hne hend => exact .docComment hmem hne (hline hend)
  | containerDocComment hmem hend => exact .containerDocComment hmem (hline hend)

/-! ### Places where tokens start -/

/-- A text `a ++ c` of valid tokens up to a token that starts where `c` does. -/
inductive TokenStart : Bytes → Bytes → Prop
  | here {g t r : Bytes} {k : Kind} : IsGap g (t ++ r) → Reads k t r → TokenStart g (t ++ r)
  | later {g t a c : Bytes} {k : Kind} : IsGap g (t ++ (a ++ c)) → Reads k t (a ++ c) →
      TokenStart a c → TokenStart (g ++ t ++ a) c

/-- A token starts with an ASCII byte that is no blank. -/
lemma Reads.exists_cons (h : Reads k t r) :
    ∃ x rest, t = x :: rest ∧ isBlank x = false ∧ x < 0x80 := by
  obtain ⟨x, rest, rfl⟩ := List.exists_cons_of_ne_nil h.ne_nil
  exact ⟨x, rest, rfl, h.isBlank_head? rfl, h.head?_lt rfl⟩

/-- A valid token starts with an ASCII byte that is no blank. -/
lemma TokenStart.exists_cons (h : TokenStart a c) :
    ∃ x rest, c = x :: rest ∧ isBlank x = false ∧ x < 0x80 := by
  induction h with
  | @here g t r k _ hreads =>
    obtain ⟨x, rest, rfl, hx⟩ := hreads.exists_cons
    exact ⟨x, rest ++ r, rfl, hx⟩
  | later _ _ _ ih => exact ih

/-- A gap in front of a token is one in front of any text. -/
lemma IsGap.of_reads (h : IsGap g (t ++ r)) (hreads : Reads k t r) (s : Bytes) : IsGap g s := by
  obtain ⟨x, rest, rfl, hx, -⟩ := hreads.exists_cons
  refine h.of_ne_lineFeed ?_ s
  rintro rfl
  exact absurd hx (by decide)

/-- What is kept of a text does not change if a blank and a filler are put in front of a token. -/
lemma TokenStart.words_insert (h : TokenStart a c) (hb : isBlank b = true) (hw : IsFiller w) :
    words (a ++ (b :: w) ++ c) = words (a ++ c) := by
  induction h with
  | @here g t r k hgap hreads =>
    have hgap' := hgap.of_reads hreads (b :: (w ++ (t ++ r)))
    rw [List.append_assoc, List.cons_append, hgap'.words_append, words_blank hb, hw.words_append,
      hgap.words_append]
  | @later g t a c k hgap hreads hstart ih =>
    obtain ⟨x, rest, rfl, hx, -⟩ := hstart.exists_cons
    have hreads' : Reads k t (a ++ (b :: w) ++ x :: rest) := by
      rw [List.append_assoc]
      exact hreads.of_blank hx hb _
    have hgap' := hgap.of_reads hreads (t ++ (a ++ (b :: w) ++ x :: rest))
    calc words (g ++ t ++ a ++ (b :: w) ++ x :: rest)
        = words (g ++ (t ++ (a ++ (b :: w) ++ x :: rest))) := by simp
      _ = (if k.isDocComment then [] else [(k, t)]) ++ words (a ++ (b :: w) ++ x :: rest) := by
          rw [hgap'.words_append, hreads'.words_append]
      _ = (if k.isDocComment then [] else [(k, t)]) ++ words (a ++ x :: rest) := by rw [ih]
      _ = words (g ++ (t ++ (a ++ x :: rest))) := by
          rw [hgap.words_append, hreads.words_append]
      _ = words (g ++ t ++ a ++ x :: rest) := by simp

/-- Every lexeme of a text of valid tokens starts where its place says. -/
lemma exists_tokenStart (file : UInt32) (offset : Nat) (hlength : offset + s.length < 2 ^ 32)
    (hvalid : ∀ l ∈ lexemes s, l.kind ≠ .invalid) {t : Token}
    (ht : t ∈ (thread (Lexeme.place file) offset (lexemes s)).1) :
    ∃ a c, s = a ++ c ∧ t.span.lo.toNat = offset + a.length ∧ TokenStart a c := by
  induction s using lexemeInduction generalizing offset with
  | gap s hnext => simp [lexemes_of_none hnext] at ht
  | lexeme s l r hnext ih =>
    rw [lexemes_of_some hnext] at hvalid ht
    rw [thread_cons] at ht
    have hl := hvalid l List.mem_cons_self
    have hreads := reads_of_nextLexeme? hnext hl
    have hgap := (isGapBefore_of_nextLexeme? hnext).isGap hl
    obtain rfl := nextLexeme?_append hnext
    have hend : (Lexeme.place file offset l).2 = offset + l.gap.length + l.text.length := rfl
    simp only [List.length_append] at hlength
    rcases List.mem_cons.1 ht with rfl | ht
    · refine ⟨l.gap, l.text ++ r, List.append_assoc _ _ _, ?_, .here hgap hreads⟩
      exact congrArg Placement.lo (placement_place file (by omega))
    · rw [hend] at ht
      obtain ⟨a, c, rfl, hlo, hstart⟩ := ih _ (by omega)
        (fun l' hl' => hvalid l' (List.mem_cons_of_mem l hl')) ht
      refine ⟨l.gap ++ l.text ++ a, c, by simp, ?_, .later hgap hreads hstart⟩
      rw [hlo, List.length_append, List.length_append]
      omega

/-! ### Runs -/

/-- What is written depends on kinds and texts only. -/
lemma thread_write_congr (state : Minifier × Renaming) {ts ts' : List Token}
    (h : ts.map (fun t => (t.kind, t.lexeme)) = ts'.map fun t => (t.kind, t.lexeme)) :
    thread Minifier.write state ts = thread Minifier.write state ts' := by
  induction ts generalizing state ts' with
  | nil => rw [List.map_eq_nil_iff.1 h.symm]
  | cons t ts ih =>
    rw [List.map_cons] at h
    obtain ⟨t', ts', rfl, hfirst, hrest⟩ := List.map_eq_cons_iff.1 h.symm
    obtain ⟨hkind, htext⟩ := Prod.mk.inj hfirst
    have hwrite : Minifier.write state t' = Minifier.write state t := by
      simp only [Minifier.write, Minifier.spell, hkind, htext]
    rw [thread_cons, thread_cons, hwrite, ih _ hrest.symm]

/-- The texts that are accepted are those in UTF-8 with valid words only. -/
lemma isSome_minify_iff {ptr64 : Bool} {file : UInt32} :
    (minify ptr64 file s).1.isSome = true ↔
      Utf8.WellFormed s ∧ ∀ p ∈ words s, p.1 ≠ .invalid := by
  rw [minify, Option.isSome_map, Option.isSome_iff_exists, forall_words_ne_invalid_iff,
    ← forall_tokensOfText_iff file (P := fun p => p.1 ≠ .invalid)]
  constructor
  · rintro ⟨E, hE⟩
    exact valid_of_minifyRun hE
  · rintro ⟨hs, hvalid⟩
    exact ⟨_, (minifyRun_of_valid hs hvalid).1⟩

/-- Texts of the same words are minified alike. -/
lemma minify_of_words_eq {ptr64 : Bool} {file : UInt32} {s' output : Bytes}
    (h : (minify ptr64 file s).1 = some output) (hs' : Utf8.WellFormed s')
    (hwords : words s' = words s) (file' : UInt32) :
    minify ptr64 file' s' = (some output, []) := by
  obtain ⟨E, hE, hjoin⟩ := Option.map_eq_some_iff.1 h
  obtain ⟨hs, hvalid, rfl⟩ := minifyRun_eq_some_iff.1 hE
  have hvalid' : ∀ t ∈ tokensOfText file' s', t.kind ≠ .invalid := by
    rw [forall_tokensOfText_iff file' (P := fun p => p.1 ≠ .invalid),
      ← forall_words_ne_invalid_iff, hwords, forall_words_ne_invalid_iff]
    exact (forall_tokensOfText_iff file (P := fun p => p.1 ≠ .invalid)).1 hvalid
  obtain ⟨hpieces, hlog⟩ := @minifyRun_of_valid ptr64 file' s' hs' hvalid'
  have htokens : (keptTokens file' s').map (fun t => (t.kind, t.lexeme)) =
      (keptTokens file s).map fun t => (t.kind, t.lexeme) := by
    rw [map_keptTokens file' hs', map_keptTokens file hs, hwords]
  rw [thread_write_congr _ htokens] at hpieces
  rw [minify, hpieces, hlog, Option.map_some, hjoin]
  rfl

/-! ### Result -/

/-- A blank, with blanks and comments behind it, may be put in front of any token of a source that
is accepted.  The new source is accepted, the same text is written, and nothing is reported. -/
theorem minify_insert {ptr64 : Bool} {file : UInt32} {source output : Bytes}
    (h : (minify ptr64 file source).1 = some output) (hlength : source.length < 2 ^ 32)
    {t : Token} (ht : t ∈ lex file source) (heof : t.kind ≠ .eof) {b : UInt8} {w : Bytes}
    (hb : isBlank b = true) (hw : IsFiller w) (hutf8 : Utf8.IsEncoding (b :: w))
    (file' : UInt32) :
    minify ptr64 file'
        (source.take t.span.lo.toNat ++ (b :: w) ++ source.drop t.span.lo.toNat) =
      (some output, []) := by
  obtain ⟨E, hE, -⟩ := Option.map_eq_some_iff.1 h
  obtain ⟨hs, hvalid⟩ := valid_of_minifyRun hE
  have ht' : t ∈ tokensOfText file source := by
    rw [lex_of_wellFormed hs] at ht
    refine (List.mem_append.1 ht).resolve_right fun hend => ?_
    rw [List.mem_singleton.1 hend] at heof
    exact heof rfl
  obtain ⟨a, c, rfl, hlo, hstart⟩ := exists_tokenStart file 0 (by omega)
    ((forall_tokensOfText_iff file (P := fun p => p.1 ≠ .invalid)).1 hvalid) ht'
  have hnew : Utf8.WellFormed (a ++ (b :: w) ++ c) := by
    obtain ⟨x, rest, rfl, -, hx⟩ := hstart.exists_cons
    obtain ⟨ha, hc⟩ := hs.cut (.inr fun y hy => Option.some.inj hy ▸ hx)
    exact (ha.append (Utf8.isEncoding_iff.1 hutf8)).append hc
  rw [hlo, Nat.zero_add, List.take_left, List.drop_left]
  exact minify_of_words_eq h hnew (hstart.words_insert hb hw) file'

/-- A doc comment between the period and the member of `x.y` is left out, and the member stays
one. -/
theorem minify_insert_of_docComment :
    minify false 0 (ascii "x. /// " ++ [0xC3, 0xA9] ++ ascii "\ny") = (some (ascii "a.y"), []) := by
  obtain ⟨hminify, hmem⟩ : (minify false 0 (ascii "x.y")).1 = some (ascii "a.y") ∧
      (⟨.ident, ⟨0, 2, 3⟩, ascii "y"⟩ : Token) ∈ lex 0 (ascii "x.y") := by
    decide +kernel
  have hfiller : IsFiller (slash :: slash :: (ascii "/ " ++ [0xC3, 0xA9] ++ [lineFeed])) :=
    .comment (by decide) .nil
  have hencoding : Utf8.IsEncoding
      (space :: slash :: slash :: (ascii "/ " ++ [0xC3, 0xA9] ++ [lineFeed])) :=
    ⟨" /// é\n".toList, by decide⟩
  have htext : ascii "x. /// " ++ [0xC3, 0xA9] ++ ascii "\ny" =
      (ascii "x.y").take 2 ++
        (space :: slash :: slash :: (ascii "/ " ++ [0xC3, 0xA9] ++ [lineFeed])) ++
        (ascii "x.y").drop 2 := by
    decide
  rw [htext]
  exact minify_insert hminify (by decide) hmem (by decide) (by decide) hfiller hencoding 0

end ZigGolf
