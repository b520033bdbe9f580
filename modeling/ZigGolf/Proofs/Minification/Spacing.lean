import ZigGolf.Minification.Minifier
import ZigGolf.Proofs.Lexing.Shape

/-!
# Where written tokens run into one another

Pieces are laid out one after the other with a space only between two that are word-like
(`Laid`).  That keeps words apart, but it does not look at punctuation: two punctuations can read as
one or as a comment, and a whole number, a period and a digit can read as a fraction.  These are the
gluing spots, and there are no others: a piece is read back from what is written if and only if it
does not glue to the pieces behind it (`Laid.reads_join_iff`).
-/

namespace ZigGolf

/-! ### Pieces that are laid out -/

/-- Whether a piece is a quoted identifier. -/
def Piece.quoted (p : Piece) : Bool := p.kind == .ident && isQuotedSpelling p.text

/-- The pieces that are tokens by themselves, in UTF-8, and no comments. -/
structure Piece.IsToken (p : Piece) : Prop where
  reads : Reads p.kind p.text []
  isDocComment_eq_false : p.kind.isDocComment = false
  wellFormed : Utf8.WellFormed p.text

/-- The lists of pieces with spaces where the minifier writes them, behind a token of kind `last`
that is a quoted identifier or not.  Only the last piece can be a line of a multiline string that
does not end. -/
inductive Laid : Kind → Bool → List Piece → Prop
  | nil {last : Kind} {lastQuoted : Bool} : Laid last lastQuoted []
  | cons {last : Kind} {lastQuoted : Bool} {p : Piece} {ps : List Piece} :
      p.IsToken →
      (p.kind = .multilineStringLine → p.text.getLast? = some lineFeed ∨ ps = []) →
      p.spaced = (!p.quoted && !lastQuoted && mustSeparate last p.kind) →
      Laid p.kind p.quoted ps → Laid last lastQuoted (p :: ps)

/-- All that is laid out is a token by itself. -/
lemma Laid.isToken {last : Kind} {lastQuoted : Bool} {ps : List Piece}
    (h : Laid last lastQuoted ps) : ∀ p ∈ ps, p.IsToken := by
  induction h with
  | nil => simp
  | cons hp _ _ _ ih =>
    intro q hq
    rcases List.mem_cons.1 hq with rfl | hq
    · exact hp
    · exact ih q hq

/-! ### Gluing spots -/

/-- Whether a whole number of a given base goes on as a fraction: a period stands behind it and then
a piece that starts with a digit of the base. -/
def fractionFollows (base : Base) : List Piece → Bool
  | point :: q :: _ =>
    point.kind == .punct .period && base.hasFraction && q.text.head?.any base.isDigit
  | _ => false

/-- Whether a piece glues to the pieces behind it: a punctuation that reads as another one, or as
the start of a comment, with the first byte of the punctuation behind it, or a whole number that
goes on as a fraction. -/
def Piece.gluesTo (p : Piece) (ps : List Piece) : Bool :=
  match p.kind, ps with
  | .punct _, q :: _ =>
    match q.kind with
    | .punct _ => q.text.head?.any fun b => Punctuation.joins (p.text ++ [b])
    | _ => false
  | .intLit, ps => fractionFollows (Base.splitMark p.text).1 ps
  | _, _ => false

/-- Whether some piece glues to the pieces behind it. -/
def hasGluingSpot : List Piece → Bool
  | [] => false
  | p :: ps => p.gluesTo ps || hasGluingSpot ps

/-! ### First bytes -/

variable {last : Kind} {lastQuoted : Bool} {p : Piece} {ps : List Piece}

/-- A piece starts with its space or with its text, which is not empty. -/
lemma Piece.head?_bytes_append (hp : p.IsToken) (s : Bytes) :
    (p.bytes ++ s).head? = if p.spaced then some space else p.text.head? := by
  obtain ⟨b, t, ht⟩ := List.exists_cons_of_ne_nil hp.reads.ne_nil
  cases hs : p.spaced with
  | true => simp [Piece.bytes, hs]
  | false => simp [Piece.bytes, hs, ht]

/-- No space is written behind a token that is not word-like. -/
lemma Laid.spaced_eq_false (h : Laid last lastQuoted (p :: ps)) (hlast : last.isWordLike = false) :
    p.spaced = false := by
  cases h with
  | cons _ _ hspaced _ => simp [hspaced, mustSeparate, hlast]

/-- Behind a word no further word starts without a space. -/
lemma Laid.head?_join_any_isNamePart (h : Laid last false ps) (hlast : last.isWordLike = true) :
    (Piece.join ps).head?.any isNamePart = false := by
  cases h with
  | nil => rfl
  | @cons _ _ p ps hp _ hspaced _ =>
    rw [Piece.join_cons, Piece.head?_bytes_append hp]
    split
    · rfl
    · next hs =>
      by_contra hnot
      obtain ⟨b, hb, hname⟩ : ∃ b, p.text.head? = some b ∧ isNamePart b = true := by
        simpa [Option.any_eq_true] using hnot
      obtain ⟨hword, hbuiltin⟩ := hp.reads.isWordLike_of_isNamePart hb hname
      have hquoted : p.quoted = false := by
        obtain ⟨t, ht⟩ := List.head?_eq_some_iff.1 hb
        have hat : b ≠ atSign := by rintro rfl; exact absurd hname (by decide)
        rw [Piece.quoted, ht]
        cases t with
        | nil => simp [isQuotedSpelling]
        | cons c t => simp [isQuotedSpelling, hat]
      exact hs (by simp [hspaced, hquoted, mustSeparate, hlast, hword, hbuiltin])

/-! ### Punctuation -/

/-- A byte that joins a text to a punctuation or comment is a byte of punctuation. -/
lemma Punctuation.isPunctuationByte_of_joins {t : Bytes} {b : UInt8}
    (h : joins (t ++ [b]) = true) : isPunctuationByte b = true := by
  rw [joins, Bool.or_eq_true, List.any_eq_true] at h
  rcases h with ⟨q, -, hq⟩ | hslash
  · refine q.isPunctuationByte_of_mem b ?_
    rw [beq_iff_eq.1 hq]
    simp
  · have hlast : (t ++ [b]).getLast? = (ascii "//").getLast? := by rw [beq_iff_eq.1 hslash]
    rw [List.getLast?_concat] at hlast
    obtain rfl : b = ZigGolf.slash := Option.some.inj hlast
    decide

/-- A punctuation is read back if and only if it glues to no punctuation behind it. -/
lemma Laid.joins_join_iff {q : Punctuation} (hkind : p.kind = .punct q)
    (h : Laid (.punct q) false ps) :
    (∀ b ∈ (Piece.join ps).head?, Punctuation.joins (p.text ++ [b]) = false) ↔
      p.gluesTo ps = false := by
  cases ps with
  | nil => simp [Piece.gluesTo, hkind]
  | cons p' ps =>
    have hspaced := h.spaced_eq_false rfl
    cases h with
    | cons hp' _ _ _ =>
      obtain ⟨b, t, ht⟩ := List.exists_cons_of_ne_nil hp'.reads.ne_nil
      rw [Piece.join_cons, Piece.head?_bytes_append hp']
      simp only [Piece.gluesTo, hkind, hspaced, ht, List.head?_cons, Bool.false_eq_true, ↓reduceIte]
      split
      · simp
      · next hnot =>
        -- a token that is no punctuation does not start with a byte of punctuation
        refine ⟨fun _ => rfl, fun _ c hc => ?_⟩
        obtain rfl : b = c := by simpa using hc
        by_contra hjoins
        have hbyte := Punctuation.isPunctuationByte_of_joins (by simpa using hjoins)
        obtain ⟨p'', hp'', -⟩ :=
          hp'.reads.exists_punct (by rw [ht]; rfl) hbyte hp'.isDocComment_eq_false
        exact hnot p'' hp''

/-! ### Fractions -/

/-- A fraction starts with a period and a digit. -/
lemma Base.exists_of_startsFraction (base : Base) {s : Bytes} (h : base.startsFraction s = true) :
    ∃ digit rest, s = byte '.' :: digit :: rest ∧ base.isDigit digit = true := by
  match s, h with
  | point :: digit :: rest, h =>
    simp only [Base.startsFraction, Bool.and_eq_true, beq_iff_eq] at h
    exact ⟨digit, rest, by rw [h.1.2], h.2⟩

/-- No token but a period starts with a period in front of a digit. -/
lemma Piece.startsFraction_bytes_append (base : Base) (hp : p.IsToken)
    (hperiod : p.kind ≠ .punct .period) (s : Bytes) :
    base.startsFraction (p.bytes ++ s) = false := by
  by_contra hnot
  obtain ⟨digit, rest, hsplit, hdigit⟩ := base.exists_of_startsFraction (by simpa using hnot)
  have hhead := Piece.head?_bytes_append hp s
  rw [hsplit, List.head?_cons] at hhead
  split at hhead
  · exact absurd hhead (by decide)
  · next hnospace =>
    obtain ⟨q, hkind, htext⟩ :=
      hp.reads.exists_punct hhead.symm (by decide) hp.isDocComment_eq_false
    -- the spelling has a second byte, which is no digit
    obtain ⟨t, ht⟩ := List.head?_eq_some_iff.1 hhead.symm
    cases t with
    | nil =>
      have hq : q = .period := Punctuation.spelling_injective (by rw [← htext, ht]; rfl)
      exact hperiod (by rw [hkind, hq])
    | cons c t =>
      have hc : isPunctuationByte c = true :=
        q.isPunctuationByte_of_mem c (by rw [← htext, ht]; simp)
      have hcd : c = digit := by
        simp only [Piece.bytes, hnospace, ht, Bool.false_eq_true, ↓reduceIte, List.cons_append,
          List.cons.injEq] at hsplit
        exact hsplit.2.1
      have hname := base.isNamePart_of_isDigit digit hdigit
      rw [hcd, isPunctuationByte, hname] at hc
      simp at hc

/-- A number goes on as a fraction if and only if a period and a digit of its base stand behind it.
-/
lemma Laid.startsFraction_join (base : Base) (h : Laid .intLit false ps) :
    base.startsFraction (Piece.join ps) = fractionFollows base ps := by
  cases h with
  | nil => rfl
  | @cons _ _ point ps hpoint _ hspaced hrest =>
    by_cases hperiod : point.kind = .punct .period
    · have htext : point.text = [byte '.'] := by
        have hreads := hpoint.reads
        rw [hperiod] at hreads
        exact hreads.eq_spelling
      have hnot : point.spaced = false := by
        rw [hspaced, hperiod]
        simp [mustSeparate, Kind.isWordLike]
      rw [Piece.join_cons, Piece.bytes, hnot, htext]
      cases hrest with
      | nil => rfl
      | @cons _ _ q qs hq _ hspaced' _ =>
        have hnot' : q.spaced = false := by
          rw [hspaced', hperiod]
          simp [mustSeparate, Kind.isWordLike]
        obtain ⟨b, t, ht⟩ := List.exists_cons_of_ne_nil hq.reads.ne_nil
        simp [Base.startsFraction, fractionFollows, Piece.bytes, hnot', ht, hperiod]
    · have hright : fractionFollows base (point :: ps) = false := by
        cases ps with
        | nil => rfl
        | cons q ps => simp [fractionFollows, hperiod]
      rw [Piece.join_cons, Piece.startsFraction_bytes_append base hpoint hperiod, hright]

/-! ### Reading back -/

/-- A plain name has no quotes. -/
lemma isQuotedSpelling_of_isPlainName {t : Bytes} (ht : isPlainName t = true) :
    isQuotedSpelling t = false := by
  obtain ⟨b, s, rfl, hb, -⟩ := isPlainName_iff.1 ht
  have hat : b ≠ atSign := by rintro rfl; exact absurd hb (by decide)
  cases s with
  | nil => rfl
  | cons c s => simp [isQuotedSpelling, hat]

/-- A piece that does not glue to the pieces behind it is read back. -/
lemma Laid.reads_join (h : Laid last lastQuoted (p :: ps)) (hglue : p.gluesTo ps = false) :
    Reads p.kind p.text (Piece.join ps) := by
  cases h with
  | cons hp hline _ hrest =>
    have hreads := hp.reads
    have hdoc := hp.isDocComment_eq_false
    rcases p with ⟨spaced, kind, text⟩
    dsimp only at hreads hdoc hline ⊢
    cases hreads with
    | name ht _ =>
      have hquoted : Piece.quoted ⟨spaced, Kind.ofName text, text⟩ = false := by
        simp [Piece.quoted, isQuotedSpelling_of_isPlainName ht]
      rw [hquoted] at hrest
      exact .name ht (hrest.head?_join_any_isNamePart (Kind.isWordLike_ofName text).1)
    | builtin ht _ => exact .builtin ht (hrest.head?_join_any_isNamePart rfl)
    | quotedName hbody => exact .quotedName hbody
    | string hbody => exact .string hbody
    | char hbody => exact .char hbody
    | line hline' => exact .line hline'
    | lastLine hline' =>
      rcases hline rfl with hlast | rfl
      · have hmem := List.mem_of_getLast? hlast
        simp +decide [hline'] at hmem
      · exact .lastLine hline'
    | @number _ b t _ hb hk halone _ _ =>
      have hkind := kind_of_cutNumber hk halone
      have hquoted : Piece.quoted ⟨spaced, kind, b :: t⟩ = false := by
        rcases hkind with rfl | rfl <;> rfl
      have hword : kind.isWordLike = true := by rcases hkind with rfl | rfl <;> rfl
      rw [hquoted] at hrest
      refine .number hb hk halone (hrest.head?_join_any_isNamePart hword) ?_
      rintro rfl
      rw [hrest.startsFraction_join]
      exact hglue
    | punct _ => exact .punct ((Laid.joins_join_iff rfl hrest).2 hglue)
    | docComment => simp [Kind.isDocComment] at hdoc
    | containerDocComment => simp [Kind.isDocComment] at hdoc

/-- A piece is read back from what is written if and only if it does not glue to the pieces behind
it. -/
theorem Laid.reads_join_iff (h : Laid last lastQuoted (p :: ps)) :
    Reads p.kind p.text (Piece.join ps) ↔ p.gluesTo ps = false := by
  refine ⟨fun hreads => ?_, h.reads_join⟩
  cases h with
  | cons hp _ _ hrest =>
    rcases p with ⟨spaced, kind, text⟩
    cases kind with
    | punct q => exact (Laid.joins_join_iff rfl hrest).1 hreads.joins_eq_false
    | intLit =>
      have hfraction := hreads.startsFraction_eq_false
      rw [hrest.startsFraction_join] at hfraction
      exact hfraction
    | _ => rfl

end ZigGolf
