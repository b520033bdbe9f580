import ZigGolf.Proofs.Lexing.Fault
import ZigGolf.Proofs.Lexing.Tiling

/-!
# Lines are read one by one

Every token but a line of a multiline string ends on the line on which it starts, and for every
lookahead of the lexer a line feed is as good as the end of the text.  So the tokens of two texts
joined by a line feed are those of the first text and those of the second (`lex_joined`), and so are
the reports: an invalid token never takes anything from the next line.  The first text must not end
within a line of a multiline string, for then the line feed belongs to that line.
-/

namespace ZigGolf

variable {s t r : Bytes} {b : UInt8}

/-! ### Literals in front of a line feed -/

section LineFeed

variable (r)

/-- A byte other than a line feed stands at the front of a text in front of a line feed exactly if
it stands at the front of the text. -/
lemma head?_append_lineFeed (hb : b ≠ lineFeed) (s : Bytes) :
    ((s ++ lineFeed :: r).head? == some b) = (s.head? == some b) := by
  cases s with
  | nil => simpa using fun h => hb h.symm
  | cons c s => rfl

/-- The same behind the first bytes of a text. -/
lemma head?_drop_append_lineFeed (hb : b ≠ lineFeed) {n : Nat} (hn : n ≤ s.length) :
    (((s ++ lineFeed :: r).drop n).head? == some b) = ((s.drop n).head? == some b) := by
  rw [List.drop_append_of_le_length hn, head?_append_lineFeed r hb]

/-- No string is closed behind the end of its line. -/
lemma closingQuote?_append_lineFeed (offset : Nat) (s : Bytes) :
    closingQuote? offset (s ++ lineFeed :: r) = closingQuote? offset s := by
  fun_induction closingQuote? offset s with
  | case1 offset => exact closingQuote?_lineFeed offset r
  | case2 offset b rest hb =>
    obtain rfl : b = lineFeed := by simpa using hb
    exact closingQuote?_lineFeed offset _
  | case3 offset b rest _ hquote =>
    obtain rfl : b = quote := by simpa using hquote
    exact closingQuote?_quote offset _
  | case4 offset b _ _ hback =>
    obtain rfl : b = backslash := by simpa using hback
    rw [List.singleton_append, closingQuote?_backslash offset (by decide),
      closingQuote?_lineFeed]
  | case5 offset b _ _ hback c rest hc ih =>
    obtain rfl : b = backslash := by simpa using hback
    rw [List.cons_append, List.cons_append, closingQuote?_escape offset hc, ih]
  | case6 offset b _ _ hback c rest hc ih =>
    obtain rfl : b = backslash := by simpa using hback
    rw [List.cons_append, List.cons_append, closingQuote?_backslash offset hc, ← List.cons_append,
      ih]
  | case7 offset b rest hfeed hquote hback ih =>
    rw [List.cons_append, closingQuote?_cons offset hfeed hquote hback, ih]

/-- A number in braces ends in front of a line feed as at the end of the text. -/
lemma bracedLength?_append_lineFeed (s : Bytes) :
    bracedLength? (s ++ lineFeed :: r) = bracedLength? s := by
  cases s with
  | nil => simp +decide [bracedLength?]
  | cons opening s =>
    have hstop : (lineFeed :: r).head?.any isHexDigit = false := rfl
    have hle : (s.takeWhile isHexDigit).length ≤ s.length :=
      (List.takeWhile_sublist isHexDigit).length_le
    simp only [List.cons_append, bracedLength?, takeWhile_append_of_stop hstop,
      head?_drop_append_lineFeed r (b := 0x7D) (by decide) hle]

/-- An escape ends with its line. -/
lemma escapeLength?_append_lineFeed (s : Bytes) :
    escapeLength? (s ++ lineFeed :: r) = escapeLength? s := by
  have hfeed : isHexDigit lineFeed = false := rfl
  rcases s with - | ⟨b, s⟩
  · simp +decide [escapeLength?]
  · simp only [List.cons_append, escapeLength?, bracedLength?_append_lineFeed]
    rcases s with - | ⟨high, - | ⟨low, s⟩⟩
    · cases r with
      | nil => rfl
      | cons c r => simp [hfeed]
    · simp [hfeed]
    · rfl

/-- The body of a character ends in front of a line feed as at the end of the text. -/
lemma charBodyLength?_append_lineFeed (s : Bytes) :
    charBodyLength? (s ++ lineFeed :: r) = charBodyLength? s := by
  cases s with
  | nil => simp +decide [charBodyLength?]
  | cons b s => simp only [List.cons_append, charBodyLength?, escapeLength?_append_lineFeed]

/-- In UTF-8 text the body of a character literal does not go beyond the text. -/
lemma le_length_of_charBodyLength? {n : Nat} (hs : Utf8.WellFormed s)
    (h : charBodyLength? s = some n) : n ≤ s.length := by
  obtain ⟨body, rest, -, rfl, rfl⟩ := exists_isCharText_of_charBodyLength? hs h
  simp

/-- No character literal is closed behind the end of its line. -/
lemma charLength?_append_lineFeed (hs : Utf8.WellFormed s) :
    charLength? (s ++ lineFeed :: r) = charLength? s := by
  rw [charLength?, charLength?, charBodyLength?_append_lineFeed]
  split
  · next n hn =>
    rw [head?_drop_append_lineFeed r (by decide) (le_length_of_charBodyLength? hs hn)]
  · rfl

/-- What is no character literal ends with its line. -/
lemma charFaultLength_append_lineFeed (s : Bytes) :
    charFaultLength (s ++ lineFeed :: r) = charFaultLength s := by
  obtain ⟨t, r', h, rfl⟩ := exists_isCharFault s
  have hhead : (r' ++ lineFeed :: r).head? = some apostrophe ↔ r'.head? = some apostrophe := by
    have hbeq := head?_append_lineFeed r (b := apostrophe) (by decide) r'
    rwa [Bool.eq_iff_iff, beq_iff_eq, beq_iff_eq] at hbeq
  have h' : IsCharFault t (r' ++ lineFeed :: r) := by
    refine h.congr ?_ hhead.1
    cases r' with
    | nil => simp
    | cons b r' => exact h.mem_of_mem_head?
  rw [List.append_assoc, h'.charFaultLength_eq, h.charFaultLength_eq, if_congr hhead rfl rfl]

/-! ### Tokens in front of a line feed -/

/-- What is cut off a text, with more text behind what is left. -/
def followCut (cut : Kind × Bytes × Bytes) (r : Bytes) : Kind × Bytes × Bytes :=
  (cut.1, cut.2.1, cut.2.2 ++ r)

/-- The first line of a text does not depend on further lines. -/
lemma firstLine_append_lineFeed (s : Bytes) :
    firstLine (s ++ lineFeed :: r) = firstLine s ∧
      afterFirstLine (s ++ lineFeed :: r) = afterFirstLine s ++ lineFeed :: r := by
  have hstop : (lineFeed :: r).head?.any (· != lineFeed) = false := rfl
  exact ⟨takeWhile_append_of_stop hstop s, dropWhile_append_of_stop hstop s⟩

/-- A string, closed or not, ends in front of a line feed as at the end of the text. -/
lemma cutString_append_lineFeed (b : UInt8) (s : Bytes) :
    cutString (b :: s ++ lineFeed :: r) = followCut (cutString (b :: s)) (lineFeed :: r) := by
  obtain ⟨hfirst, hafter⟩ := firstLine_append_lineFeed r (b :: s)
  unfold cutString
  rw [List.cons_append, List.tail_cons, List.tail_cons, closingQuote?_append_lineFeed,
    ← List.cons_append, hfirst, hafter]
  split
  · next n hn =>
    obtain ⟨body, rest, rfl, rfl, -, -⟩ := exists_of_closingQuote? hn
    have hle : 0 + body.length ≤ (body ++ quote :: rest).length := by simp
    have hle' : 0 + body.length + 2 ≤ (b :: (body ++ quote :: rest)).length := by
      simp only [List.length_cons, List.length_append]
      omega
    rw [List.take_append_of_le_length hle, List.take_append_of_le_length hle',
      List.drop_append_of_le_length hle']
    rfl
  · rfl

/-- A character, closed or not, ends in front of a line feed as at the end of the text. -/
lemma cutChar_append_lineFeed (b : UInt8) (hs : Utf8.WellFormed s) :
    cutChar (b :: s ++ lineFeed :: r) = followCut (cutChar (b :: s)) (lineFeed :: r) := by
  unfold cutChar
  rw [List.cons_append, List.tail_cons, List.tail_cons, charLength?_append_lineFeed r hs,
    charFaultLength_append_lineFeed, ← List.cons_append]
  have hcut : ∀ (k : Kind) {n : Nat}, n ≤ s.length →
      (k, (b :: s ++ lineFeed :: r).take (n + 1), (b :: s ++ lineFeed :: r).drop (n + 1)) =
        followCut (k, (b :: s).take (n + 1), (b :: s).drop (n + 1)) (lineFeed :: r) := by
    intro k n hn
    have hle : n + 1 ≤ (b :: s).length := Nat.succ_le_succ hn
    rw [List.take_append_of_le_length hle, List.drop_append_of_le_length hle]
    rfl
  split
  · next n hn =>
    obtain ⟨body, rest, rfl, rfl, -⟩ := exists_of_charLength? hn
    exact hcut .charLit (by simp)
  · exact hcut .invalid (ascii_cut_charFaultLength s).1

/-- A numeral is cut off in front of more text if it is read in the same way there. -/
lemma cutNumber_append_of_read {r : Bytes} (hstop : r.head?.any isNamePart = false)
    (hread : Numeral.read (s ++ r) = (Numeral.read s).follow r) :
    cutNumber (s ++ r) = followCut (cutNumber s) r := by
  have hhead : ((Numeral.read s).rest ++ r).head?.any isNamePart =
      (Numeral.read s).rest.head?.any isNamePart := by
    cases (Numeral.read s).rest with
    | nil => exact hstop
    | cons c rest => rfl
  unfold cutNumber
  rw [hread]
  simp only [Numeral.follow, hhead, takeWhile_append_of_stop hstop, dropWhile_append_of_stop hstop]
  split
  · rfl
  · rfl

/-- A number, sound or not, ends in front of a line feed as at the end of the text. -/
lemma cutNumber_append_lineFeed (hs : s ≠ []) :
    cutNumber (s ++ lineFeed :: r) = followCut (cutNumber s) (lineFeed :: r) := by
  refine cutNumber_append_of_read rfl
    (Numeral.read_append_of_stop rfl hs (fun _ _ => ?_) fun _ _ _ _ => rfl)
  cases r with
  | nil => rfl
  | cons c r => simp +decide [Base.startsFraction]

/-- No punctuation goes on behind the end of its line. -/
lemma longest?_append_lineFeed (s : Bytes) :
    Punctuation.longest? (s ++ lineFeed :: r) = Punctuation.longest? s := by
  have hfront : ∀ p : Punctuation,
      p.spelling.isPrefixOf (s ++ lineFeed :: r) = p.spelling.isPrefixOf s := by
    intro p
    rw [Bool.eq_iff_iff, List.isPrefixOf_iff_prefix, List.isPrefixOf_iff_prefix]
    constructor
    · intro h
      by_cases hle : p.spelling.length ≤ s.length
      · exact List.prefix_of_prefix_length_le h (List.prefix_append s _) hle
      · -- a longer spelling would hold the line feed
        have hlong : s ++ [lineFeed] <+: p.spelling := by
          refine List.prefix_of_prefix_length_le ⟨r, by simp⟩ h ?_
          rw [List.length_append, List.length_singleton]
          omega
        have hmem : lineFeed ∈ p.spelling := hlong.subset (by simp)
        exact absurd hmem (lineFeed_notMem_of_isPlain p.isPlain_of_mem)
    · intro h
      exact h.trans (List.prefix_append s _)
  unfold Punctuation.longest?
  exact congrArg (Punctuation.byLength.find? ·) (funext hfront)

/-- A punctuation ends in front of a line feed as at the end of the text. -/
lemma cutPunctuation_append_lineFeed (hs : Utf8.WellFormed (b :: s)) :
    cutPunctuation b (s ++ lineFeed :: r) = followCut (cutPunctuation b s) (lineFeed :: r) := by
  have hlongest := longest?_append_lineFeed r (b :: s)
  have happend := cutPunctuation_append b s
  unfold cutPunctuation at happend ⊢
  rw [← List.cons_append, hlongest]
  split
  · next p hp =>
    have hle : p.spelling.length ≤ (b :: s).length :=
      ((Punctuation.longest?_eq_some_iff.1 hp).1).length_le
    rw [List.drop_append_of_le_length hle]
    rfl
  · obtain ⟨u, rest, hu, hsplit, -⟩ := hs.exists_sequence (by simp)
    obtain ⟨c, u, rfl⟩ := List.exists_cons_of_ne_nil hu.ne_nil
    obtain rfl : b = c := (List.cons.inj hsplit).1
    have hle : Utf8.sequenceLength b ≤ (b :: s).length := by
      rw [hsplit, ← hu.length_eq]
      simp
    dsimp only
    rw [List.take_append_of_le_length hle, List.drop_append_of_le_length hle]
    rfl

/-- What a sigil introduces ends in front of a line feed as at the end of the text. -/
lemma cutAfterSigil_append_lineFeed (s : Bytes) :
    cutAfterSigil (s ++ lineFeed :: r) =
      ((cutAfterSigil s).1, (cutAfterSigil s).2 ++ lineFeed :: r) := by
  have hstop : (lineFeed :: r).head?.any isNamePart = false := rfl
  cases s with
  | nil => simp +decide [cutAfterSigil]
  | cons b s =>
    have hhead : (b :: s ++ lineFeed :: r).head? = (b :: s).head? := rfl
    unfold cutAfterSigil
    rw [hhead, cutString_append_lineFeed, takeWhile_append_of_stop hstop,
      dropWhile_append_of_stop hstop]
    rcases cutString (b :: s) with ⟨k, text, rest⟩
    split
    · dsimp only [followCut]
      cases k with
      | _ => rfl
    · split
      · rfl
      · rfl

/-- A line of a multiline string that has its line feed does not go on. -/
lemma cutMultilineStringLine_append_lineFeed
    (h : (cutMultilineStringLine s).2.1.getLast? = some lineFeed) :
    cutMultilineStringLine (s ++ lineFeed :: r) =
      followCut (cutMultilineStringLine s) (lineFeed :: r) := by
  have hle : (firstLine s).length + 1 ≤ s.length := by
    by_contra hlt
    -- else the token is all of the text, which is a single line
    have hafter := congrArg List.length (firstLine_append_afterFirstLine s)
    rw [List.length_append] at hafter
    have hnil : afterFirstLine s = [] := List.length_eq_zero_iff.1 (by omega)
    have hfirst := firstLine_append_afterFirstLine s
    rw [hnil, List.append_nil] at hfirst
    have hmem : lineFeed ∈ firstLine s := by
      rw [hfirst]
      exact List.mem_of_mem_take (List.mem_of_getLast? h)
    exact lineFeed_notMem_firstLine s hmem
  unfold cutMultilineStringLine
  dsimp only
  rw [(firstLine_append_lineFeed r s).1, List.take_append_of_le_length hle,
    List.drop_append_of_le_length hle]
  rfl

/-- Whether a comment starts is not decided by what stands behind a line feed. -/
lemma startsComment_append_lineFeed (s : Bytes) :
    startsComment (s ++ lineFeed :: r) = startsComment s ∧
      startsDocComment (s ++ lineFeed :: r) = startsDocComment s := by
  rcases s with - | ⟨a, - | ⟨b, - | ⟨c, - | ⟨d, s⟩⟩⟩⟩
  · rcases r with - | ⟨x, - | ⟨y, r⟩⟩
    · exact ⟨rfl, rfl⟩
    · exact ⟨by simp +decide [startsComment], rfl⟩
    · exact ⟨by simp +decide [startsComment], by simp +decide [startsDocComment]⟩
  · cases r with
    | nil => exact ⟨by simp +decide [startsComment], rfl⟩
    | cons x r => exact ⟨by simp +decide [startsComment], by simp +decide [startsDocComment]⟩
  · exact ⟨rfl, by simp +decide [startsDocComment]⟩
  · exact ⟨rfl, rfl⟩
  · exact ⟨rfl, rfl⟩

/-- A token is cut off a line as it is cut off the whole text, unless it is a line of a multiline
string that goes on. -/
lemma cutToken_append_lineFeed (hgap : gapItem? (b :: s) = none) (hs : Utf8.WellFormed (b :: s))
    (hline : (cutToken b s).1.kind = .multilineStringLine →
      (cutToken b s).1.text.getLast? = some lineFeed) :
    cutToken b (s ++ lineFeed :: r) = ((cutToken b s).1, (cutToken b s).2 ++ lineFeed :: r) := by
  have hstop : (lineFeed :: r).head?.any isNamePart = false := rfl
  have hcomment := (startsComment_append_lineFeed r (b :: s)).1
  have hhead : ((s ++ lineFeed :: r).head? == some backslash) = (s.head? == some backslash) :=
    head?_append_lineFeed r (by decide) s
  rw [List.cons_append] at hcomment
  unfold cutToken at hline ⊢
  rw [hcomment, hhead]
  split
  · next hc =>
    -- a comment that is no gap has a third byte, which tells its kind
    have hdoc : startsDocComment (b :: s) = true := by
      simp only [gapItem?, hc] at hgap
      split at hgap
      · simp at hgap
      · simpa using hgap
    obtain ⟨hfirst, hafter⟩ := firstLine_append_lineFeed r (b :: s)
    rcases s with - | ⟨c, - | ⟨d, s⟩⟩
    · simp [startsDocComment] at hdoc
    · simp [startsDocComment] at hdoc
    · rw [List.cons_append] at hfirst hafter
      rw [cutDocComment, cutDocComment, hfirst, hafter]
      rfl
  split
  · next hc hdigit =>
    have hcut := cutNumber_append_lineFeed r (List.cons_ne_nil b s)
    rw [List.cons_append] at hcut
    rw [hcut]
    rfl
  split
  · have hcut := cutString_append_lineFeed r b s
    rw [List.cons_append] at hcut
    rw [hcut]
    rfl
  split
  · next hquote =>
    obtain rfl : b = apostrophe := by simpa using hquote
    have hrest := ((Utf8.wellFormed_append_cons_iff (a := []) (by decide)).1 hs).2
    have hcut := cutChar_append_lineFeed r apostrophe hrest
    rw [List.cons_append] at hcut
    rw [hcut]
    rfl
  split
  · next hc hdigit hquote hquote' hback =>
    rw [if_neg hc, if_neg hdigit, if_neg hquote, if_neg hquote', if_pos hback] at hline
    rw [← List.cons_append, cutMultilineStringLine_append_lineFeed r (hline rfl)]
    rfl
  split
  · rw [cutAfterSigil_append_lineFeed]
  split
  · rw [← List.cons_append, cutName, takeWhile_append_of_stop hstop, dropWhile_append_of_stop hstop]
    rfl
  · rw [cutPunctuation_append_lineFeed r hs]
    rfl

/-- The first token of a text is found in front of a line feed as well. -/
lemma nextLexeme?_append_lineFeed {l : Lexeme} {rest : Bytes} (h : nextLexeme? s = some (l, rest))
    (hs : Utf8.WellFormed s)
    (hline : l.kind = .multilineStringLine → l.text.getLast? = some lineFeed) :
    nextLexeme? (s ++ lineFeed :: r) = some (l, rest ++ lineFeed :: r) := by
  have hgap := isGap_splitGap s
  have hnone := gapItem?_splitGap s
  have happend := splitGap_append s
  unfold nextLexeme? at h
  split at h
  · simp at h
  · next gap b tail hsplit =>
    rw [hsplit] at hgap hnone happend
    dsimp only at hgap hnone happend
    obtain ⟨rfl, rfl⟩ := Prod.mk.inj (Option.some.inj h)
    rw [← happend] at hs
    have hblank : isBlank b = false := by
      by_contra hb
      rw [gapItem?_blank (by simpa using hb)] at hnone
      simp at hnone
    have hfeed : b ≠ lineFeed := by
      rintro rfl
      exact absurd hblank (by decide)
    have hnone' : gapItem? (b :: (tail ++ lineFeed :: r)) = none := by
      obtain ⟨hcomment, hdoc⟩ := startsComment_append_lineFeed r (b :: tail)
      rw [List.cons_append] at hcomment hdoc
      simp only [gapItem?, hblank, hcomment, hdoc, Bool.false_eq_true, ↓reduceIte] at hnone ⊢
      split at hnone
      · simp at hnone
      · next hnot => rw [if_neg hnot]
    have hcut := cutToken_append_lineFeed r hnone (hgap.wellFormed hs) hline
    have htext : s ++ lineFeed :: r = gap.flatten ++ (b :: (tail ++ lineFeed :: r)) := by
      rw [← happend]
      simp
    rw [htext, (hgap.of_ne_lineFeed hfeed _).nextLexeme?_append, nextLexeme?_of_none hnone', hcut]
    rfl

end LineFeed

/-! ### Texts joined by a line feed -/

/-- A gap at the end of a text goes on with the line feed behind it. -/
lemma IsGap.append_lineFeed {g e : Bytes} (h : IsGap g e) (he : e = []) (r : Bytes) :
    IsGap (g ++ [lineFeed]) r := by
  induction h with
  | nil => exact .blank rfl .nil
  | blank hb _ ih => exact .blank hb (ih he)
  | @comment line g e hline hend _ ih =>
    have hsplit : slash :: slash :: (line ++ g) ++ [lineFeed] =
        slash :: slash :: (line ++ (g ++ [lineFeed])) := by simp
    rw [hsplit]
    refine .comment hline ?_ (ih he)
    cases g with
    | nil => simp
    | cons b g => exact hend

/-- The texts that do not end within a line of a multiline string: if such a line is the last token,
it has its line feed. -/
def LinesEnded (s : Bytes) : Prop :=
  ∀ l ∈ (lexemes s).getLast?, l.kind = .multilineStringLine → l.text.getLast? = some lineFeed

/-- The lexemes of two texts joined by a line feed: those of the first, and those of the second,
where what is left of the first and the line feed stand in the gap before the first of them. -/
lemma thread_place_joined (file : UInt32) (offset : Nat) {a : Bytes} (ha : Utf8.WellFormed a)
    (hend : LinesEnded a) (c : Bytes) :
    (thread (Lexeme.place file) offset (lexemes (a ++ lineFeed :: c))).1 =
      (thread (Lexeme.place file) offset (lexemes a)).1 ++
        (thread (Lexeme.place file) (offset + a.length + 1) (lexemes c)).1 := by
  induction a using lexemeInduction generalizing offset with
  | gap a hnext =>
    have hgap := (isGap_of_nextLexeme? hnext).append_lineFeed rfl c
    have hjoined := hgap.nextLexeme?_append
    rw [List.append_assoc, List.singleton_append] at hjoined
    rw [lexemes_of_none hnext, thread_nil, List.nil_append]
    cases hc : nextLexeme? c with
    | none =>
      rw [hc] at hjoined
      rw [lexemes_of_none hjoined, lexemes_of_none hc]
      rfl
    | some p =>
      obtain ⟨l, rest⟩ := p
      rw [hc] at hjoined
      rw [lexemes_of_some hjoined, lexemes_of_some hc, thread_cons, thread_cons]
      have hplace : Lexeme.place file offset { l with gap := a ++ [lineFeed] ++ l.gap } =
          Lexeme.place file (offset + a.length + 1) l := by
        simp only [Lexeme.place, List.length_append, List.length_singleton, Nat.add_assoc]
      rw [hplace]
  | lexeme a l rest hnext ih =>
    have hlexemes := lexemes_of_some hnext
    have hrest := (wellFormed_of_nextLexeme?_eq_some hnext ha).2
    have hlength := congrArg List.length (nextLexeme?_append hnext)
    simp only [List.length_append] at hlength
    -- if the first token is the last one, what is asked of the last one is asked of it
    have hline : l.kind = .multilineStringLine → l.text.getLast? = some lineFeed := by
      intro hk
      have hreads := reads_of_nextLexeme? hnext (by simp [hk])
      rw [hk] at hreads
      rcases hreads.getLast?_or_eq_nil with hlast | rfl
      · exact hlast
      · exact hend l (by rw [hlexemes, lexemes_nil]; rfl) hk
    have hend' : LinesEnded rest := by
      intro l' hl'
      refine hend l' ?_
      rw [hlexemes, Option.mem_def, List.getLast?_cons, Option.mem_def.1 hl']
      rfl
    have hrec := ih (Lexeme.place file offset l).2 hrest hend'
    rw [lexemes_of_some (nextLexeme?_append_lineFeed c hnext ha hline), hlexemes, thread_cons,
      thread_cons, hrec]
    have hoffset : (Lexeme.place file offset l).2 + rest.length + 1 = offset + a.length + 1 := by
      simp only [Lexeme.place]
      omega
    rw [hoffset]
    rfl

/-! ### Places behind a line feed -/

/-- A span that much further on. -/
def Span.shift (n : Nat) (span : Span) : Span :=
  { span with lo := span.lo + n.toUInt32, hi := span.hi + n.toUInt32 }

/-- A token that much further on. -/
def Token.shift (n : Nat) (t : Token) : Token := { t with span := t.span.shift n }

/-- A report about a place that much further on. -/
def Diagnostic.shift (n : Nat) (d : Diagnostic) : Diagnostic := { d with span := d.span.shift n }

/-- A lexeme further on in a source has its token further on. -/
lemma place_add (file : UInt32) (n offset : Nat) (l : Lexeme) :
    Lexeme.place file (offset + n) l =
      ((Lexeme.place file offset l).1.shift n, (Lexeme.place file offset l).2 + n) := by
  have hadd : ∀ m k : Nat, (m + k).toUInt32 = m.toUInt32 + k.toUInt32 := UInt32.ofNat_add
  have hlo : offset + n + l.gap.length = offset + l.gap.length + n := by omega
  have hhi : offset + l.gap.length + n + l.text.length =
      offset + l.gap.length + l.text.length + n := by omega
  simp only [Lexeme.place, Token.shift, Span.shift, hlo, hhi, hadd]

/-- Lexemes that stand further on are tokens further on. -/
lemma thread_place_add (file : UInt32) (n offset : Nat) (ls : List Lexeme) :
    (thread (Lexeme.place file) (offset + n) ls).1 =
      (thread (Lexeme.place file) offset ls).1.map (Token.shift n) := by
  induction ls generalizing offset with
  | nil => rfl
  | cons l ls ih => rw [thread_cons, thread_cons, place_add, ih, List.map_cons]

/-- The tokens in front of the end, of two texts joined by a line feed. -/
lemma tokensOfText_joined (file : UInt32) {a : Bytes} (ha : Utf8.WellFormed a)
    (hend : LinesEnded a) (c : Bytes) :
    tokensOfText file (a ++ lineFeed :: c) =
      tokensOfText file a ++ (tokensOfText file c).map (Token.shift (a.length + 1)) := by
  rw [tokensOfText, thread_place_joined file 0 ha hend, Nat.add_assoc, thread_place_add]
  rfl

/-- Shifted tokens are reported as far on as they stand. -/
lemma reportsOn_shift (n : Nat) (ts : List Token) :
    reportsOn (ts.map (Token.shift n)) = (reportsOn ts).map (Diagnostic.shift n) := by
  have hkind : (fun t : Token => decide (t.kind = .invalid)) ∘ Token.shift n =
      fun t => decide (t.kind = .invalid) := rfl
  rw [reportsOn, reportsOn, List.filter_map, hkind, List.map_map, List.map_map]
  rfl

/-- What the last token of a text is asked for is asked for of its last lexeme. -/
lemma linesEnded_iff (file : UInt32) (s : Bytes) :
    LinesEnded s ↔ ∀ t ∈ (tokensOfText file s).getLast?, t.kind = .multilineStringLine →
      t.lexeme.getLast? = some lineFeed := by
  have hlast := congrArg List.getLast? (map_tokensOfText file s)
  rw [List.getLast?_map, List.getLast?_map] at hlast
  unfold LinesEnded
  cases htokens : (tokensOfText file s).getLast? with
  | none =>
    rw [htokens, Option.map_none] at hlast
    rw [Option.map_eq_none_iff.1 hlast.symm]
    simp
  | some t =>
    rw [htokens, Option.map_some] at hlast
    obtain ⟨l, hl, hpair⟩ := Option.map_eq_some_iff.1 hlast.symm
    obtain ⟨hkind, htext⟩ := Prod.mk.inj hpair
    simp [hl, hkind, htext]

/-! ### Result -/

/-- The tokens of two texts joined by a line feed are those of the first, without its end, and those
of the second, further on; and so are the reports.  Valid or invalid, no token takes anything from
the next line. -/
theorem lex_joined (file : UInt32) {a c : Bytes} (ha : Utf8.IsEncoding a) (hc : Utf8.IsEncoding c)
    (hend : ∀ t ∈ (lex file a).dropLast.getLast?, t.kind = .multilineStringLine →
      t.lexeme.getLast? = some lineFeed) :
    lex file (a ++ lineFeed :: c) =
        (lex file a).dropLast ++ (lex file c).map (Token.shift (a.length + 1)) ∧
      lexReports file (a ++ lineFeed :: c) =
        lexReports file a ++ (lexReports file c).map (Diagnostic.shift (a.length + 1)) := by
  rw [Utf8.isEncoding_iff] at ha hc
  have hjoined : Utf8.WellFormed (a ++ lineFeed :: c) :=
    (Utf8.wellFormed_append_cons_iff (by decide)).2 ⟨ha, hc⟩
  rw [lex_of_wellFormed ha, List.dropLast_concat] at hend ⊢
  have htokens := tokensOfText_joined file ha ((linesEnded_iff file a).2 hend) c
  constructor
  · have hatEnd : Token.atEnd file (a ++ lineFeed :: c).length =
        (Token.atEnd file c.length).shift (a.length + 1) := by
      have hlength : (a ++ lineFeed :: c).length = c.length + (a.length + 1) := by
        rw [List.length_append, List.length_cons]
        omega
      have hadd : (c.length + (a.length + 1)).toUInt32 =
          c.length.toUInt32 + (a.length + 1).toUInt32 := UInt32.ofNat_add _ _
      rw [hlength]
      simp only [Token.atEnd, Token.shift, Span.shift, hadd]
    rw [lex_of_wellFormed hjoined, lex_of_wellFormed hc, htokens, hatEnd, List.map_append,
      List.append_assoc]
    rfl
  · rw [lexReports_of_wellFormed file hjoined, lexReports_of_wellFormed file ha,
      lexReports_of_wellFormed file hc, htokens, reportsOn_append, reportsOn_shift]

/-- A quoted identifier and a character literal that break off within an escape, and then a numeral
without the digits of its exponent: each ends with its line. -/
theorem lex_joined_of_faults :
    lex 0 (ascii "@\"\\u\x7b1\n'\\x4" ++ lineFeed :: ascii "2e+ //!\n\"") =
        [⟨.invalid, ⟨0, 1, 6⟩, ascii "\"\\u\x7b1"⟩, ⟨.invalid, ⟨0, 7, 11⟩, ascii "'\\x4"⟩,
          ⟨.invalid, ⟨0, 12, 15⟩, ascii "2e+"⟩, ⟨.containerDocComment, ⟨0, 16, 19⟩, ascii "//!"⟩,
          ⟨.invalid, ⟨0, 20, 21⟩, ascii "\""⟩, ⟨.eof, ⟨0, 21, 21⟩, []⟩] ∧
      (lexReports 0 (ascii "@\"\\u\x7b1\n'\\x4" ++ lineFeed :: ascii "2e+ //!\n\"")).map
          Diagnostic.span = [⟨0, 1, 6⟩, ⟨0, 7, 11⟩, ⟨0, 12, 15⟩, ⟨0, 20, 21⟩] := by
  obtain ⟨hfirst, hsecond, hreports, hreports'⟩ :
      lex 0 (ascii "@\"\\u\x7b1\n'\\x4") =
          [⟨.invalid, ⟨0, 1, 6⟩, ascii "\"\\u\x7b1"⟩, ⟨.invalid, ⟨0, 7, 11⟩, ascii "'\\x4"⟩,
            ⟨.eof, ⟨0, 11, 11⟩, []⟩] ∧
        lex 0 (ascii "2e+ //!\n\"") =
          [⟨.invalid, ⟨0, 0, 3⟩, ascii "2e+"⟩, ⟨.containerDocComment, ⟨0, 4, 7⟩, ascii "//!"⟩,
            ⟨.invalid, ⟨0, 8, 9⟩, ascii "\""⟩, ⟨.eof, ⟨0, 9, 9⟩, []⟩] ∧
        lexReports 0 (ascii "@\"\\u\x7b1\n'\\x4") =
          [⟨.error, .invalidToken, ⟨0, 1, 6⟩, [ascii "\"\\u\x7b1"]⟩,
            ⟨.error, .invalidToken, ⟨0, 7, 11⟩, [ascii "'\\x4"]⟩] ∧
        lexReports 0 (ascii "2e+ //!\n\"") =
          [⟨.error, .invalidToken, ⟨0, 0, 3⟩, [ascii "2e+"]⟩,
            ⟨.error, .invalidToken, ⟨0, 8, 9⟩, [ascii "\""]⟩] := by
    decide +kernel
  have hencoding : Utf8.IsEncoding (ascii "@\"\\u\x7b1\n'\\x4") :=
    ⟨"@\"\\u\x7b1\n'\\x4".toList, by decide⟩
  have hencoding' : Utf8.IsEncoding (ascii "2e+ //!\n\"") := ⟨"2e+ //!\n\"".toList, by decide⟩
  obtain ⟨htokens, hlog⟩ := lex_joined 0 hencoding hencoding' (by simp [hfirst])
  rw [htokens, hlog, hfirst, hsecond, hreports, hreports']
  exact ⟨rfl, rfl⟩

end ZigGolf
