import ZigGolf.Lexing.Gap
import ZigGolf.Lexing.Number
import ZigGolf.Lexing.Quoted
import ZigGolf.Token.Basic

/-!
# Lexemes

A text is a sequence of lexemes, each with the gap before it, and a last gap.  `cutToken` tells by
the first bytes of a text which sort of token stands there and splits it off; `lexemes` does so
until nothing but a gap is left.

A text that starts with no token gives an invalid lexeme: one code point, or as much as the token
it was taken for.  Lexing then goes on behind it.

This is what the text alone decides.  The lexer reads one lexeme after the other, and it is the
lexer that gives them places and reports the invalid ones.
-/

namespace ZigGolf

/-- A piece of a text that is a token, valid or not, with the bytes passed over before it. -/
structure Lexeme where
  /-- What stands between the token before and this one. -/
  gap : Bytes
  kind : Kind
  /-- The bytes of the token. -/
  text : Bytes
  deriving DecidableEq

namespace Lexeme

/-- The lexeme of a token at the very front of a text, and what follows it. -/
def ofCut (cut : Kind × Bytes × Bytes) : Lexeme × Bytes := (⟨[], cut.1, cut.2.1⟩, cut.2.2)

/-- Puts a lexeme at its place: its token, given where the lexeme before it ended, and where it
ends itself. -/
def place (file : UInt32) (offset : Nat) (l : Lexeme) : Token × Nat :=
  let lo := offset + l.gap.length
  let hi := lo + l.text.length
  (⟨l.kind, ⟨file, lo.toUInt32, hi.toUInt32⟩, l.text⟩, hi)

end Lexeme

/-! ### One sort of token each -/

/-- Splits a doc comment off a text that starts with one.  It runs up to the end of its line. -/
def cutDocComment (s : Bytes) : Kind × Bytes × Bytes :=
  let kind := if s[2]? = some (byte '!') then .containerDocComment else .docComment
  (kind, firstLine s, afterFirstLine s)

/-- Splits a line of a multiline string off a text that starts with one.  The line feed belongs to
it. -/
def cutMultilineStringLine (s : Bytes) : Kind × Bytes × Bytes :=
  let n := (firstLine s).length + 1
  (.multilineStringLine, s.take n, s.drop n)

/-- Splits a name or keyword off a text that starts with one. -/
def cutName (s : Bytes) : Kind × Bytes × Bytes :=
  let name := s.takeWhile isNamePart
  (Kind.ofName name, name, s.dropWhile isNamePart)

/-- Splits a punctuation off a text; if none stands there, one code point is invalid. -/
def cutPunctuation (b : UInt8) (s : Bytes) : Kind × Bytes × Bytes :=
  match Punctuation.longest? (b :: s) with
  | some p => (.punct p, p.spelling, (b :: s).drop p.spelling.length)
  | none =>
    let n := Utf8.sequenceLength b
    (.invalid, (b :: s).take n, (b :: s).drop n)

/-- Splits off what the sigil at the start of a text introduces; `s` is what follows the sigil.  A
quoted identifier is a string after the sigil, and if that string is invalid it is the token, with
the sigil left in the gap.  A name after the sigil is a builtin; without one the sigil is invalid.
-/
def cutAfterSigil (s : Bytes) : Lexeme × Bytes :=
  if s.head? = some quote then
    match cutString s with
    | (.invalid, text, rest) => (⟨[atSign], .invalid, text⟩, rest)
    | (_, text, rest) => (⟨[], .ident, atSign :: text⟩, rest)
  else if s.head?.any isNameStart then
    (⟨[], .builtin, atSign :: s.takeWhile isNamePart⟩, s.dropWhile isNamePart)
  else (⟨[], .invalid, [atSign]⟩, s)

/-! ### Any token -/

/-- Splits the token off a text that starts with `b` and goes on with `s`.  A comment here is a doc
comment, since other comments belong to the gap. -/
def cutToken (b : UInt8) (s : Bytes) : Lexeme × Bytes :=
  if startsComment (b :: s) then Lexeme.ofCut (cutDocComment (b :: s))
  else if isDigit b then Lexeme.ofCut (cutNumber (b :: s))
  else if b == quote then Lexeme.ofCut (cutString (b :: s))
  else if b == apostrophe then Lexeme.ofCut (cutChar (b :: s))
  else if b == backslash && s.head? == some backslash then
    Lexeme.ofCut (cutMultilineStringLine (b :: s))
  else if b == atSign then cutAfterSigil s
  else if isNameStart b then Lexeme.ofCut (cutName (b :: s))
  else Lexeme.ofCut (cutPunctuation b s)

/-- What a sigil introduces is cut out whole, with nothing lost. -/
theorem cutAfterSigil_append (s : Bytes) :
    (cutAfterSigil s).1.gap ++ (cutAfterSigil s).1.text ++ (cutAfterSigil s).2 = atSign :: s := by
  have h := cutString_append s
  unfold cutAfterSigil
  split
  · split <;> simp_all
  · split <;> simp

/-- Nothing is lost when a punctuation is cut out. -/
theorem cutPunctuation_append (b : UInt8) (s : Bytes) :
    (cutPunctuation b s).2.1 ++ (cutPunctuation b s).2.2 = b :: s := by
  unfold cutPunctuation
  split
  · next p hp =>
    obtain ⟨t, ht⟩ : p.spelling <+: b :: s := by simpa using List.find?_some hp
    simp [← ht]
  · simp

/-- What is passed over, the token and the rest make up the text. -/
theorem cutToken_append (b : UInt8) (s : Bytes) :
    (cutToken b s).1.gap ++ (cutToken b s).1.text ++ (cutToken b s).2 = b :: s := by
  unfold cutToken Lexeme.ofCut
  split
  · simp [cutDocComment]
  split
  · simp [cutNumber_append]
  split
  · simp [cutString_append]
  split
  · simp [cutChar_append]
  split
  · simp [cutMultilineStringLine]
  split
  · next hb => rw [cutAfterSigil_append, (by simpa using hb : b = atSign)]
  split
  · simp [cutName]
  · simp [cutPunctuation_append]

/-- What a sigil introduces has at least one byte. -/
theorem cutAfterSigil_ne_nil (s : Bytes) : (cutAfterSigil s).1.text ≠ [] := by
  unfold cutAfterSigil
  split
  · next hq =>
    obtain ⟨t, rfl⟩ : ∃ t, s = quote :: t := by
      cases s with
      | nil => simp at hq
      | cons c t => simp at hq; exact ⟨t, by rw [hq]⟩
    have h := cutString_ne_nil t
    split <;> simp_all
  · split <;> simp

/-- A punctuation, or the code point that stands in its place, has at least one byte. -/
theorem cutPunctuation_ne_nil (b : UInt8) (s : Bytes) : (cutPunctuation b s).2.1 ≠ [] := by
  unfold cutPunctuation
  split
  · exact Punctuation.spelling_ne_nil _
  · have h := Utf8.sequenceLength_pos b
    cases hn : Utf8.sequenceLength b with
    | zero => omega
    | succ n => simp

/-- A token has at least one byte. -/
theorem cutToken_ne_nil (b : UInt8) (s : Bytes) : (cutToken b s).1.text ≠ [] := by
  unfold cutToken Lexeme.ofCut
  split
  · next h =>
    -- a comment starts with a slash, which does not end the line
    have hb : (b != lineFeed) = true := by
      cases s with
      | nil => simp [startsComment] at h
      | cons c s => simp [startsComment] at h; rw [h.1]; decide
    simp [cutDocComment, firstLine, hb]
  split
  · next h => exact cutNumber_ne_nil h s
  split
  · next h => rw [(by simpa using h : b = quote)]; exact cutString_ne_nil s
  split
  · exact cutChar_ne_nil b s
  split
  · simp [cutMultilineStringLine]
  split
  · exact cutAfterSigil_ne_nil s
  split
  · next h => simp [cutName, isNamePart, h]
  · exact cutPunctuation_ne_nil b s

/-! ### All tokens -/

/-- Splits the first lexeme, with the gap before it, off a text; nothing if the text is a gap. -/
def nextLexeme? (s : Bytes) : Option (Lexeme × Bytes) :=
  match splitGap s with
  | (_, []) => none
  | (gap, b :: rest) =>
    let (lexeme, rest) := cutToken b rest
    some ({ lexeme with gap := gap.flatten ++ lexeme.gap }, rest)

/-- A text is the gap in front of its first lexeme, the lexeme, and the rest. -/
theorem nextLexeme?_append {s rest : Bytes} {l : Lexeme} (h : nextLexeme? s = some (l, rest)) :
    l.gap ++ l.text ++ rest = s := by
  have hs := splitGap_append s
  unfold nextLexeme? at h
  split at h
  · simp at h
  · next gap b r hg =>
    have hc := cutToken_append b r
    simp at h
    rw [hg, ← hc] at hs
    rw [← h.1, ← h.2, ← hs]
    simp

/-- Lexemes are not empty. -/
theorem nextLexeme?_ne_nil {s rest : Bytes} {l : Lexeme} (h : nextLexeme? s = some (l, rest)) :
    l.text ≠ [] := by
  unfold nextLexeme? at h
  split at h
  · simp at h
  · simp at h
    rw [← h.1]
    exact cutToken_ne_nil _ _

/-- Behind a lexeme there is less text left. -/
theorem nextLexeme?_shrinks {s rest : Bytes} {l : Lexeme} (h : nextLexeme? s = some (l, rest)) :
    rest.length < s.length := by
  have hne := List.length_pos_iff.2 (nextLexeme?_ne_nil h)
  rw [← nextLexeme?_append h]
  simp only [List.length_append]
  omega

/-- The lexemes of a text, in order.  What follows the last one is a gap. -/
def lexemes (s : Bytes) : List Lexeme :=
  (unroll List.length nextLexeme? nextLexeme?_shrinks s).1

theorem lexemes_of_none {s : Bytes} (h : nextLexeme? s = none) : lexemes s = [] := by
  rw [lexemes, unroll_of_none _ _ _ h]

/-- The lexemes of a text are its first one and those of the rest. -/
theorem lexemes_of_some {s rest : Bytes} {l : Lexeme} (h : nextLexeme? s = some (l, rest)) :
    lexemes s = l :: lexemes rest := by
  rw [lexemes, unroll_of_some _ _ _ h]
  rfl

/-- What holds of a text that is nothing but a gap, and of any other text if it holds of what follows
its first lexeme, holds of every text. -/
@[elab_as_elim]
theorem lexemeInduction {motive : Bytes → Prop}
    (gap : ∀ s, nextLexeme? s = none → motive s)
    (lexeme : ∀ s l rest, nextLexeme? s = some (l, rest) → motive rest → motive s) (s : Bytes) :
    motive s := by
  induction hn : s.length using Nat.strongRecOn generalizing s with
  | _ n ih =>
    cases h : nextLexeme? s with
    | none => exact gap s h
    | some p => exact lexeme s p.1 p.2 h (ih _ (hn ▸ nextLexeme?_shrinks h) p.2 rfl)

end ZigGolf
