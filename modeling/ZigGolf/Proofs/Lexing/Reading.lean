import ZigGolf.Lexing.Lexeme
import ZigGolf.Proofs.Lexing.Number
import ZigGolf.Proofs.Lexing.Punctuation
import ZigGolf.Proofs.Lexing.Quoted

/-!
# The lexical grammar

`Reads k t r` says that the text `t`, with the text `r` behind it, is a token of kind `k`: it is the
grammar of valid tokens together with what each of them asks of the text behind it.  The lexer finds
exactly these tokens (`nextLexeme?_eq_some_iff_reads`), so that from here on a question about lexing
is a question about the grammar.

Names, builtins and numerals ask that no name goes on behind them, punctuations that the next byte
does not make a longer one of them, comments and unfinished lines of multiline strings that their
line ends.  Literals between quotes ask nothing.
-/

namespace ZigGolf

/-- The valid tokens, in front of a text. -/
inductive Reads : Kind → Bytes → Bytes → Prop
  /-- A name or keyword. -/
  | name {t r : Bytes} : isPlainName t = true → r.head?.any isNamePart = false →
      Reads (Kind.ofName t) t r
  /-- The sigil and a name. -/
  | builtin {t r : Bytes} : isPlainName t = true → r.head?.any isNamePart = false →
      Reads .builtin (atSign :: t) r
  /-- The sigil and a string. -/
  | quotedName {body r : Bytes} : IsStringBody body →
      Reads .ident (atSign :: quote :: (body ++ [quote])) r
  | string {body r : Bytes} : IsStringBody body → Reads .stringLit (quote :: (body ++ [quote])) r
  | char {body r : Bytes} : IsCharBody body →
      Reads .charLit (apostrophe :: (body ++ [apostrophe])) r
  /-- A line of a multiline string, with the line feed that ends it. -/
  | line {line r : Bytes} : lineFeed ∉ line →
      Reads .multilineStringLine (backslash :: backslash :: (line ++ [lineFeed])) r
  /-- A line of a multiline string that ends with the text. -/
  | lastLine {line : Bytes} : lineFeed ∉ line →
      Reads .multilineStringLine (backslash :: backslash :: line) []
  /-- A numeral.  A whole number must not go on as a fraction. -/
  | number {k : Kind} {b : UInt8} {t r : Bytes} : isDigit b = true → k ≠ .invalid →
      cutNumber (b :: t) = (k, b :: t, []) → r.head?.any isNamePart = false →
      (k = .intLit → (Base.splitMark (b :: t)).1.startsFraction r = false) → Reads k (b :: t) r
  | punct {p : Punctuation} {r : Bytes} :
      (∀ b ∈ r.head?, Punctuation.joins (p.spelling ++ [b]) = false) →
      Reads (.punct p) p.spelling r
  | docComment {line r : Bytes} : lineFeed ∉ line → line.head? ≠ some slash →
      (∀ b ∈ r.head?, b = lineFeed) → Reads .docComment (slash :: slash :: slash :: line) r
  | containerDocComment {line r : Bytes} : lineFeed ∉ line → (∀ b ∈ r.head?, b = lineFeed) →
      Reads .containerDocComment (slash :: slash :: byte '!' :: line) r

/-! ### Gaps and tokens -/

/-- Where no gap item stands the gap is empty. -/
lemma splitGap_of_none {s : Bytes} (h : gapItem? s = none) : splitGap s = ([], s) := by
  rw [splitGap, unroll_of_none _ _ _ h]

/-- A gap item in front is the first one of the gap. -/
lemma splitGap_of_some {s t rest : Bytes} (h : gapItem? s = some (t, rest)) :
    splitGap s = (t :: (splitGap rest).1, (splitGap rest).2) := by
  rw [splitGap, unroll_of_some _ _ _ h]
  rfl

/-- The text behind a gap does not start with a gap. -/
lemma gapItem?_splitGap (s : Bytes) : gapItem? (splitGap s).2 = none :=
  step_unroll _ _ _ s

/-- Where no gap stands a token is cut off. -/
lemma nextLexeme?_of_none {b : UInt8} {s : Bytes} (h : gapItem? (b :: s) = none) :
    nextLexeme? (b :: s) = some (cutToken b s) := by
  rw [nextLexeme?, splitGap_of_none h]
  rfl

/-- The empty text has no lexeme. -/
lemma nextLexeme?_nil : nextLexeme? [] = none := by
  rw [nextLexeme?, splitGap_of_none rfl]

@[simp] lemma lexemes_nil : lexemes [] = [] := lexemes_of_none nextLexeme?_nil

/-- A gap item in front belongs to the gap before the first lexeme. -/
lemma nextLexeme?_of_some {s t rest : Bytes} (h : gapItem? s = some (t, rest)) :
    nextLexeme? s = (nextLexeme? rest).map fun p => ({ p.1 with gap := t ++ p.1.gap }, p.2) := by
  rcases hrest : splitGap rest with ⟨gap, tail⟩
  have hs : splitGap s = (t :: gap, tail) := by rw [splitGap_of_some h, hrest]
  rw [nextLexeme?, nextLexeme?, hs, hrest]
  cases tail with
  | nil => rfl
  | cons b r => simp

/-- A blank is a gap item by itself. -/
lemma gapItem?_blank {b : UInt8} (hb : isBlank b = true) (s : Bytes) :
    gapItem? (b :: s) = some ([b], s) := by
  simp [gapItem?, hb]

/-- No gap stands where a byte that is no blank starts no comment. -/
lemma gapItem?_of_not_startsComment {b : UInt8} {s : Bytes} (hb : isBlank b = false)
    (hc : startsComment (b :: s) = false) : gapItem? (b :: s) = none := by
  simp [gapItem?, hb, hc]

/-- A comment starts with a slash. -/
lemma startsComment_eq_false {b : UInt8} {s : Bytes} (hs : b ≠ slash) :
    startsComment (b :: s) = false := by
  cases s with
  | nil => rfl
  | cons c s => simp [startsComment, hs]

/-- No gap starts with a byte that is neither a blank nor a slash. -/
lemma gapItem?_of_ne_slash {b : UInt8} (hb : isBlank b = false) (hs : b ≠ slash) (s : Bytes) :
    gapItem? (b :: s) = none :=
  gapItem?_of_not_startsComment hb (startsComment_eq_false hs)

/-! ### Which token stands where -/

section Dispatch

variable {b : UInt8} {s : Bytes}

/-- A digit starts a numeral. -/
lemma nextLexeme?_digit (hb : isDigit b = true) :
    nextLexeme? (b :: s) = some (Lexeme.ofCut (cutNumber (b :: s))) := by
  have hblank : isBlank b = false :=
    isBlank_eq_false_of_isPlain b (isPlain_of_isNamePart b (isNamePart_of_isDigit b hb))
  have hslash : b ≠ slash := by rintro rfl; exact absurd hb (by decide)
  rw [nextLexeme?_of_none (gapItem?_of_ne_slash hblank hslash s), cutToken]
  simp [startsComment_eq_false hslash, hb, Lexeme.ofCut]

/-- A quote starts a string literal. -/
lemma nextLexeme?_quote :
    nextLexeme? (quote :: s) = some (Lexeme.ofCut (cutString (quote :: s))) := by
  rw [nextLexeme?_of_none (gapItem?_of_ne_slash (by decide) (by decide) s), cutToken]
  simp +decide [startsComment_eq_false, Lexeme.ofCut]

/-- An apostrophe starts a character literal. -/
lemma nextLexeme?_apostrophe :
    nextLexeme? (apostrophe :: s) = some (Lexeme.ofCut (cutChar (apostrophe :: s))) := by
  rw [nextLexeme?_of_none (gapItem?_of_ne_slash (by decide) (by decide) s), cutToken]
  simp +decide [startsComment_eq_false, Lexeme.ofCut]

/-- Two backslashes start a line of a multiline string. -/
lemma nextLexeme?_backslash :
    nextLexeme? (backslash :: backslash :: s) =
      some (Lexeme.ofCut (cutMultilineStringLine (backslash :: backslash :: s))) := by
  rw [nextLexeme?_of_none (gapItem?_of_ne_slash (by decide) (by decide) _), cutToken]
  simp +decide [startsComment_eq_false, Lexeme.ofCut]

/-- A sigil is cut off with what it introduces. -/
lemma nextLexeme?_atSign : nextLexeme? (atSign :: s) = some (cutAfterSigil s) := by
  rw [nextLexeme?_of_none (gapItem?_of_ne_slash (by decide) (by decide) s), cutToken]
  simp +decide [startsComment_eq_false]

/-- A letter or an underscore starts a name. -/
lemma nextLexeme?_name (hb : isNameStart b = true) :
    nextLexeme? (b :: s) = some (Lexeme.ofCut (cutName (b :: s))) := by
  have hblank : isBlank b = false :=
    isBlank_eq_false_of_isPlain b (isPlain_of_isNamePart b (isNamePart_of_isNameStart b hb))
  have hdigit : isDigit b = false := by
    by_contra h
    exact absurd hb (by simp [isNameStart_eq_false_of_isDigit b (by simpa using h)])
  have hne : ∀ c, isNameStart c = false → b ≠ c := by
    rintro c hc rfl
    exact absurd hb (by simp [hc])
  rw [nextLexeme?_of_none (gapItem?_of_ne_slash hblank (hne slash (by decide)) s), cutToken]
  simp [startsComment_eq_false (hne slash (by decide)), hdigit, hb, Lexeme.ofCut,
    hne quote (by decide), hne apostrophe (by decide), hne backslash (by decide),
    hne atSign (by decide)]

/-- A byte of punctuation that starts no comment starts a punctuation. -/
lemma nextLexeme?_punctuation (hb : isPunctuationByte b = true)
    (hc : startsComment (b :: s) = false) :
    nextLexeme? (b :: s) = some (Lexeme.ofCut (cutPunctuation b s)) := by
  simp only [isPunctuationByte, isPlain, isNamePart, Bool.and_eq_true, Bool.not_eq_true',
    Bool.or_eq_false_iff, bne_iff_ne] at hb
  obtain ⟨⟨⟨⟨⟨⟨-, hblank⟩, hquote⟩, hapostrophe⟩, hback⟩, hname, hdigit⟩, hat⟩ := hb
  rw [nextLexeme?_of_none (gapItem?_of_not_startsComment hblank hc), cutToken]
  simp [hc, hdigit, hname, hquote, hapostrophe, hback, hat, Lexeme.ofCut]

/-- A doc comment runs up to the end of its line. -/
lemma nextLexeme?_docComment (h : startsDocComment s = true) :
    nextLexeme? s = some (Lexeme.ofCut (cutDocComment s)) := by
  match s, h with
  | a :: b :: c :: s, h =>
    have hslash : a = slash ∧ b = slash := by
      simp only [startsDocComment, Bool.and_eq_true, beq_iff_eq] at h
      exact h.1
    obtain ⟨rfl, rfl⟩ := hslash
    have hgap : gapItem? (slash :: slash :: c :: s) = none := by
      simp +decide [gapItem?, h]
    rw [nextLexeme?_of_none hgap, cutToken]
    simp [startsComment, Lexeme.ofCut]

end Dispatch

/-! ### From the lexer to the grammar -/

/-- A line ends at the first line feed. -/
lemma firstLine_append {s r : Bytes} (hs : lineFeed ∉ s) (hr : ∀ b ∈ r.head?, b = lineFeed) :
    firstLine (s ++ r) = s ∧ afterFirstLine (s ++ r) = r := by
  have hall : ∀ b ∈ s, (b != lineFeed) = true := by
    intro b hb
    rw [bne_iff_ne]
    rintro rfl
    exact hs hb
  have hstop : r.head?.any (· != lineFeed) = false := by
    cases r with
    | nil => rfl
    | cons b r => simp [hr b rfl]
  rw [firstLine, afterFirstLine, takeWhile_append_of_stop hstop, dropWhile_append_of_stop hstop,
    List.takeWhile_eq_self_iff.2 hall, List.dropWhile_eq_nil_iff.2 hall]
  exact ⟨rfl, rfl⟩

/-- The first line of a text holds no line feed. -/
lemma lineFeed_notMem_firstLine (s : Bytes) : lineFeed ∉ firstLine s := by
  intro h
  simpa using List.mem_takeWhile_imp h

/-- Behind the first line stands a line feed, if anything. -/
lemma eq_lineFeed_of_mem_head?_afterFirstLine (s : Bytes) :
    ∀ b ∈ (afterFirstLine s).head?, b = lineFeed := by
  intro b hb
  have h : (afterFirstLine s).head?.any (· != lineFeed) = false := head?_dropWhile_any s
  rw [Option.mem_def.1 hb] at h
  simpa using h

/-- A doc comment that is cut off is a token of the grammar. -/
lemma reads_cutDocComment {s : Bytes} (h : startsDocComment s = true) :
    Reads (cutDocComment s).1 (cutDocComment s).2.1 (cutDocComment s).2.2 := by
  match s, h with
  | a :: b :: c :: s, h =>
    simp only [startsDocComment, Bool.and_eq_true, Bool.or_eq_true, beq_iff_eq, bne_iff_ne] at h
    obtain ⟨⟨rfl, rfl⟩, h⟩ := h
    have hline := lineFeed_notMem_firstLine s
    have hrest := eq_lineFeed_of_mem_head?_afterFirstLine s
    rcases h with rfl | ⟨rfl, hs⟩
    · exact .containerDocComment hline hrest
    · refine .docComment hline ?_ hrest
      -- the line starts with no slash, for then there would be four
      intro hhead
      refine hs ?_
      obtain ⟨line, hline'⟩ : ∃ line, firstLine s = slash :: line := List.head?_eq_some_iff.1 hhead
      rw [← firstLine_append_afterFirstLine s, hline']
      rfl

/-- A line of a multiline string is cut off behind its line feed, or at the end of the text. -/
lemma cutMultilineStringLine_append {line r : Bytes} (hline : lineFeed ∉ line)
    (hr : ∀ b ∈ r.head?, b = lineFeed) :
    cutMultilineStringLine (backslash :: backslash :: (line ++ r)) =
      (.multilineStringLine, backslash :: backslash :: (line ++ r.take 1), r.drop 1) := by
  have hfirst : firstLine (backslash :: backslash :: (line ++ r)) =
      backslash :: backslash :: firstLine (line ++ r) := rfl
  simp only [cutMultilineStringLine, hfirst, (firstLine_append hline hr).1, List.length_cons,
    List.take_succ_cons, List.drop_succ_cons, List.take_length_add_append,
    List.drop_length_add_append]

/-- A line of a multiline string that is cut off is a token of the grammar. -/
lemma reads_cutMultilineStringLine (s : Bytes) :
    Reads .multilineStringLine (cutMultilineStringLine (backslash :: backslash :: s)).2.1
      (cutMultilineStringLine (backslash :: backslash :: s)).2.2 := by
  have hline := lineFeed_notMem_firstLine s
  have hr := eq_lineFeed_of_mem_head?_afterFirstLine s
  have hcut := cutMultilineStringLine_append hline hr
  rw [firstLine_append_afterFirstLine] at hcut
  rw [hcut]
  cases hrest : afterFirstLine s with
  | nil =>
    rw [List.take_nil, List.append_nil]
    exact .lastLine hline
  | cons b r =>
    rw [hrest] at hr
    obtain rfl := hr b rfl
    exact .line hline

/-- What is cut off from the first byte of a name on is a plain name. -/
lemma isPlainName_takeWhile {b : UInt8} (hb : isNameStart b = true) (s : Bytes) :
    isPlainName ((b :: s).takeWhile isNamePart) = true := by
  rw [List.takeWhile_cons_of_pos (isNamePart_of_isNameStart b hb), isPlainName, hb,
    Bool.true_and, List.all_eq_true]
  exact fun c hc => List.mem_takeWhile_imp hc

/-- A name is a keyword or an identifier. -/
lemma Kind.ofName_ne_invalid (t : Bytes) : Kind.ofName t ≠ .invalid := by
  unfold Kind.ofName
  split <;> simp

/-- What the sigil introduces, if it is valid, is a token of the grammar. -/
lemma reads_cutAfterSigil {s r : Bytes} {l : Lexeme} (h : cutAfterSigil s = (l, r))
    (hk : l.kind ≠ .invalid) : l.gap = [] ∧ Reads l.kind l.text r := by
  unfold cutAfterSigil at h
  split at h
  · next hquote =>
    obtain ⟨s, rfl⟩ := List.head?_eq_some_iff.1 hquote
    split at h
    · next hcut =>
      rw [Prod.mk.injEq] at h
      rw [← h.1] at hk
      exact absurd rfl hk
    · next k text rest hvalid hcut =>
      obtain ⟨rfl, rfl⟩ := Prod.mk.inj h
      have hkind : k ≠ .invalid := by
        rintro rfl
        exact hvalid rfl
      obtain ⟨-, body, hbody, -, rfl⟩ := (cutString_eq_iff hkind).1 hcut
      exact ⟨rfl, .quotedName hbody⟩
  · split at h
    · next hname =>
      cases s with
      | nil => simp at hname
      | cons b s =>
        obtain ⟨rfl, rfl⟩ := Prod.mk.inj h
        exact ⟨rfl, .builtin (isPlainName_takeWhile (by simpa using hname) s)
          (head?_dropWhile_any _)⟩
    · rw [Prod.mk.injEq] at h
      rw [← h.1] at hk
      exact absurd rfl hk

/-- A punctuation that is cut off where no comment starts is a token of the grammar. -/
lemma reads_cutPunctuation {b : UInt8} {s : Bytes} (hc : startsComment (b :: s) = false)
    (hk : (cutPunctuation b s).1 ≠ .invalid) :
    Reads (cutPunctuation b s).1 (cutPunctuation b s).2.1 (cutPunctuation b s).2.2 := by
  unfold cutPunctuation at hk ⊢
  split
  · next p hp =>
    obtain ⟨r, hr⟩ := (Punctuation.longest?_eq_some_iff.1 hp).1
    rw [← hr] at hp hc ⊢
    rw [List.drop_left]
    refine .punct fun c hc' => ?_
    have hlonger := Punctuation.longest?_append_iff.1 hp c hc'
    obtain ⟨r, rfl⟩ := List.head?_eq_some_iff.1 hc'
    rw [Punctuation.joins, Bool.or_eq_false_iff]
    constructor
    · rw [List.any_eq_false]
      intro q _ hq
      exact hlonger q (beq_iff_eq.1 hq)
    · rw [beq_eq_false_iff_ne]
      intro hslash
      -- two slashes would start a comment
      have hsplit : p.spelling ++ c :: r = ascii "//" ++ r := by rw [← hslash]; simp
      rw [hsplit] at hc
      exact absurd hc (by change ¬ (true = false); decide)
  · next hp =>
    rw [hp] at hk
    exact absurd rfl hk

/-- A valid numeral that is cut off is a token of the grammar. -/
lemma reads_cutNumber {b : UInt8} {s : Bytes} (hdigit : isDigit b = true)
    (hk : (cutNumber (b :: s)).1 ≠ .invalid) :
    Reads (cutNumber (b :: s)).1 (cutNumber (b :: s)).2.1 (cutNumber (b :: s)).2.2 := by
  have happend := cutNumber_append (b :: s)
  have hne := cutNumber_ne_nil hdigit s
  rcases hcut : cutNumber (b :: s) with ⟨k, t, r⟩
  rw [hcut] at happend hne hk
  dsimp only at happend hne
  obtain ⟨c, t, rfl⟩ := List.exists_cons_of_ne_nil hne
  obtain ⟨rfl, rfl⟩ := List.cons.inj happend
  obtain ⟨halone, hstop, hfraction⟩ := (cutNumber_append_iff hne hk).1 hcut
  exact .number hdigit hk halone hstop hfraction

/-- A valid token that is cut off where no gap stands is a token of the grammar. -/
lemma reads_cutToken {b : UInt8} {s r : Bytes} {l : Lexeme} (hgap : gapItem? (b :: s) = none)
    (h : cutToken b s = (l, r)) (hk : l.kind ≠ .invalid) : l.gap = [] ∧ Reads l.kind l.text r := by
  unfold cutToken at h
  split at h
  · next hcomment =>
    have hdoc : startsDocComment (b :: s) = true := by
      simp only [gapItem?, hcomment] at hgap
      split at hgap
      · simp at hgap
      · simpa using hgap
    obtain ⟨rfl, rfl⟩ := Prod.mk.inj h
    exact ⟨rfl, reads_cutDocComment hdoc⟩
  next hcomment =>
  split at h
  · next hdigit =>
    obtain ⟨rfl, rfl⟩ := Prod.mk.inj h
    exact ⟨rfl, reads_cutNumber hdigit hk⟩
  split at h
  · next hquote =>
    obtain rfl : b = quote := by simpa using hquote
    obtain ⟨rfl, rfl⟩ := Prod.mk.inj h
    refine ⟨rfl, ?_⟩
    rcases hcut : cutString (quote :: s) with ⟨k, t, r⟩
    rw [hcut] at hk
    obtain ⟨rfl, body, hbody, -, rfl⟩ := (cutString_eq_iff hk).1 hcut
    exact .string hbody
  split at h
  · next hquote =>
    obtain rfl : b = apostrophe := by simpa using hquote
    obtain ⟨rfl, rfl⟩ := Prod.mk.inj h
    refine ⟨rfl, ?_⟩
    rcases hcut : cutChar (apostrophe :: s) with ⟨k, t, r⟩
    rw [hcut] at hk
    obtain ⟨rfl, body, hbody, -, rfl⟩ := (cutChar_eq_iff hk).1 hcut
    exact .char hbody
  split at h
  · next hback =>
    rw [Bool.and_eq_true, beq_iff_eq, beq_iff_eq] at hback
    obtain ⟨rfl, hhead⟩ := hback
    obtain ⟨s, rfl⟩ := List.head?_eq_some_iff.1 hhead
    obtain ⟨rfl, rfl⟩ := Prod.mk.inj h
    exact ⟨rfl, reads_cutMultilineStringLine s⟩
  split at h
  · exact reads_cutAfterSigil h hk
  split at h
  · next hname =>
    obtain ⟨rfl, rfl⟩ := Prod.mk.inj h
    exact ⟨rfl, .name (isPlainName_takeWhile hname s) (head?_dropWhile_any _)⟩
  · obtain ⟨rfl, rfl⟩ := Prod.mk.inj h
    exact ⟨rfl, reads_cutPunctuation (by simpa using hcomment) hk⟩

/-- A lexeme is cut off where no gap stands, behind the longest gap. -/
lemma exists_cutToken_of_nextLexeme? {s r : Bytes} {l : Lexeme}
    (h : nextLexeme? s = some (l, r)) :
    ∃ b rest l', (splitGap s).2 = b :: rest ∧ gapItem? (b :: rest) = none ∧
      cutToken b rest = (l', r) ∧ l'.kind = l.kind ∧ l'.text = l.text := by
  have hgap := gapItem?_splitGap s
  unfold nextLexeme? at h
  split at h
  · simp at h
  · next gap b rest hsplit =>
    rw [hsplit] at hgap ⊢
    rcases hcut : cutToken b rest with ⟨l', r'⟩
    rw [hcut] at h
    obtain ⟨rfl, rfl⟩ := Prod.mk.inj (Option.some.inj h)
    exact ⟨b, rest, l', rfl, hgap, hcut, rfl, rfl⟩

/-- A valid lexeme is a token of the grammar, behind the longest gap. -/
lemma reads_of_nextLexeme? {s r : Bytes} {l : Lexeme} (h : nextLexeme? s = some (l, r))
    (hk : l.kind ≠ .invalid) : Reads l.kind l.text r := by
  obtain ⟨b, rest, l', -, hgap, hcut, hkind, htext⟩ := exists_cutToken_of_nextLexeme? h
  rw [← hkind] at hk ⊢
  rw [← htext]
  exact (reads_cutToken hgap hcut hk).2

/-! ### From the grammar to the lexer -/

/-- A plain name is a letter or an underscore with letters, digits and underscores behind it. -/
lemma isPlainName_iff {t : Bytes} :
    isPlainName t = true ↔
      ∃ b s, t = b :: s ∧ isNameStart b = true ∧ ∀ c ∈ s, isNamePart c = true := by
  cases t with
  | nil => simp [isPlainName]
  | cons b s => simp [isPlainName]

/-- A plain name is cut off whole where no name goes on behind it. -/
lemma takeWhile_isNamePart_append {t r : Bytes} (ht : isPlainName t = true)
    (hr : r.head?.any isNamePart = false) :
    (t ++ r).takeWhile isNamePart = t ∧ (t ++ r).dropWhile isNamePart = r := by
  obtain ⟨b, s, rfl, hb, hs⟩ := isPlainName_iff.1 ht
  have hall : ∀ c ∈ b :: s, isNamePart c = true := by
    intro c hc
    rcases List.mem_cons.1 hc with rfl | hc
    · exact isNamePart_of_isNameStart c hb
    · exact hs c hc
  rw [takeWhile_append_of_stop hr, dropWhile_append_of_stop hr, List.takeWhile_eq_self_iff.2 hall,
    List.dropWhile_eq_nil_iff.2 hall]
  exact ⟨rfl, rfl⟩

/-- A sigil in front of a name is cut off with the name, as a builtin. -/
lemma cutAfterSigil_name {t r : Bytes} (ht : isPlainName t = true)
    (hr : r.head?.any isNamePart = false) :
    cutAfterSigil (t ++ r) = (⟨[], .builtin, atSign :: t⟩, r) := by
  obtain ⟨htake, hdrop⟩ := takeWhile_isNamePart_append ht hr
  obtain ⟨b, s, rfl, hb, -⟩ := isPlainName_iff.1 ht
  have hquote : b ≠ quote := by rintro rfl; exact absurd hb (by decide)
  rw [cutAfterSigil, htake, hdrop]
  simp [hquote, hb]

/-- A sigil in front of a string is cut off with the string, as an identifier. -/
lemma cutAfterSigil_quoted {body r : Bytes} (hbody : IsStringBody body) :
    cutAfterSigil (quote :: (body ++ quote :: r)) =
      (⟨[], .ident, atSign :: quote :: (body ++ [quote])⟩, r) := by
  have hcut : cutString (quote :: (body ++ quote :: r)) =
      (.stringLit, quote :: body ++ [quote], r) :=
    (cutString_eq_iff (by simp)).2 ⟨rfl, body, hbody, rfl, rfl⟩
  rw [cutAfterSigil, hcut]
  simp

/-- A doc comment is cut off where its line ends. -/
lemma cutDocComment_append {c : UInt8} {line r : Bytes} (hc : c ≠ lineFeed)
    (hline : lineFeed ∉ line) (hr : ∀ b ∈ r.head?, b = lineFeed) :
    cutDocComment (slash :: slash :: c :: (line ++ r)) =
      (if c = byte '!' then .containerDocComment else .docComment,
        slash :: slash :: c :: line, r) := by
  have hmem : lineFeed ∉ slash :: slash :: c :: line := by simp +decide [hline, hc.symm]
  obtain ⟨hfirst, hafter⟩ := firstLine_append hmem hr
  simp only [List.cons_append] at hfirst hafter
  rw [cutDocComment, hfirst, hafter]
  simp

/-- No punctuation of two bytes or more starts a comment. -/
lemma startsComment_of_one_lt {p : Punctuation} (hlength : 1 < p.spelling.length) (r : Bytes) :
    startsComment (p.spelling ++ r) = false := by
  have halone : startsComment p.spelling = false := by cases p <;> rfl
  match hs : p.spelling, hlength with
  | a :: b :: s, _ =>
    rw [hs] at halone
    exact halone

/-- A punctuation starts no comment if the byte behind it does not make one of it. -/
lemma startsComment_spelling_append {p : Punctuation} {r : Bytes}
    (h : ∀ b ∈ r.head?, Punctuation.joins (p.spelling ++ [b]) = false) :
    startsComment (p.spelling ++ r) = false := by
  by_cases hlength : 1 < p.spelling.length
  · exact startsComment_of_one_lt hlength r
  · obtain ⟨a, s, hs⟩ := List.exists_cons_of_ne_nil p.spelling_ne_nil
    obtain rfl : s = [] := by
      rw [hs, List.length_cons] at hlength
      exact List.length_eq_zero_iff.1 (by omega)
    cases r with
    | nil => rw [hs]; rfl
    | cons b r =>
      by_contra hcomment
      obtain ⟨rfl, rfl⟩ : a = slash ∧ b = slash := by simpa [hs, startsComment] using hcomment
      have hjoins := h slash rfl
      rw [hs] at hjoins
      simp [Punctuation.joins_slashes] at hjoins

/-- A punctuation is found where the byte behind it makes nothing else of it. -/
lemma nextLexeme?_spelling_append {p : Punctuation} {r : Bytes}
    (hjoins : ∀ b ∈ r.head?, Punctuation.joins (p.spelling ++ [b]) = false) :
    nextLexeme? (p.spelling ++ r) = some (⟨[], .punct p, p.spelling⟩, r) := by
  have hcomment := startsComment_spelling_append hjoins
  have hlongest : Punctuation.longest? (p.spelling ++ r) = some p := by
    refine Punctuation.longest?_append_iff.2 fun b hb q hq => ?_
    have hjoins' := hjoins b hb
    rw [Punctuation.joins, Bool.or_eq_false_iff, List.any_eq_false] at hjoins'
    exact hjoins'.1 q q.mem_all (beq_iff_eq.2 hq)
  obtain ⟨b, s, hs⟩ := List.exists_cons_of_ne_nil p.spelling_ne_nil
  have hb : isPunctuationByte b = true := p.isPunctuationByte_of_mem b (by simp [hs])
  have hcut : cutPunctuation b (s ++ r) = (.punct p, p.spelling, r) := by
    rw [hs, List.cons_append] at hlongest
    rw [cutPunctuation, hlongest, ← List.cons_append, ← hs]
    simp
  rw [hs, List.cons_append] at hcomment ⊢
  rw [nextLexeme?_punctuation hb hcomment, hcut, hs]
  rfl

/-- A token of the grammar is what the lexer finds. -/
lemma Reads.nextLexeme?_eq {k : Kind} {t r : Bytes} (h : Reads k t r) :
    nextLexeme? (t ++ r) = some (⟨[], k, t⟩, r) := by
  cases h with
  | name ht hr =>
    obtain ⟨htake, hdrop⟩ := takeWhile_isNamePart_append ht hr
    obtain ⟨b, s, rfl, hb, -⟩ := isPlainName_iff.1 ht
    rw [List.cons_append] at htake hdrop ⊢
    rw [nextLexeme?_name hb, cutName, htake, hdrop]
    rfl
  | builtin ht hr => rw [List.cons_append, nextLexeme?_atSign, cutAfterSigil_name ht hr]
  | quotedName hbody =>
    simp only [List.cons_append, List.append_assoc, List.nil_append]
    rw [nextLexeme?_atSign, cutAfterSigil_quoted hbody]
  | @string body _ hbody =>
    simp only [List.cons_append, List.append_assoc, List.nil_append]
    rw [nextLexeme?_quote, (cutString_eq_iff (by simp)).2 ⟨rfl, body, hbody, rfl, rfl⟩]
    rfl
  | @char body _ hbody =>
    simp only [List.cons_append, List.append_assoc, List.nil_append]
    rw [nextLexeme?_apostrophe, (cutChar_eq_iff (by simp)).2 ⟨rfl, body, hbody, rfl, rfl⟩]
    rfl
  | line hline =>
    simp only [List.cons_append, List.append_assoc, List.nil_append]
    rw [nextLexeme?_backslash, cutMultilineStringLine_append hline (by simp)]
    rfl
  | @lastLine line hline =>
    have hcut := cutMultilineStringLine_append hline (r := []) (by simp)
    rw [List.append_nil] at hcut ⊢
    rw [nextLexeme?_backslash, hcut]
    simp [Lexeme.ofCut]
  | number hb hk halone hstop hfraction =>
    have hcut := (cutNumber_append_iff (List.cons_ne_nil _ _) hk).2 ⟨halone, hstop, hfraction⟩
    rw [List.cons_append] at hcut ⊢
    rw [nextLexeme?_digit hb, hcut]
    rfl
  | punct hjoins => exact nextLexeme?_spelling_append hjoins
  | @docComment line r hline hhead hr =>
    have hslash : (line ++ r).head? ≠ some slash := by
      cases line with
      | nil =>
        intro h
        exact absurd (hr slash h) (by decide)
      | cons b line => exact hhead
    have hdoc : startsDocComment (slash :: slash :: slash :: (line ++ r)) = true := by
      rw [startsDocComment, bne_iff_ne.2 hslash]
      rfl
    simp only [List.cons_append]
    rw [nextLexeme?_docComment hdoc, cutDocComment_append (by decide) hline hr]
    rfl
  | containerDocComment hline hr =>
    simp only [List.cons_append]
    rw [nextLexeme?_docComment (by rfl), cutDocComment_append (by decide) hline hr]
    rfl

/-- The lexer finds exactly the tokens of the grammar. -/
theorem nextLexeme?_eq_some_iff_reads {k : Kind} {t r : Bytes} (hk : k ≠ .invalid) :
    nextLexeme? (t ++ r) = some (⟨[], k, t⟩, r) ↔ Reads k t r :=
  ⟨fun h => reads_of_nextLexeme? h hk, Reads.nextLexeme?_eq⟩

end ZigGolf
