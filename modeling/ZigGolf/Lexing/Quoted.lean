import ZigGolf.Token.Kind
import ZigGolf.Bytes.Utf8
import ZigGolf.Lexing.Gap

/-!
# Literals between quotes

String and character literals, and the escapes that both may hold.  An escape is a backslash
followed by one of `n r t \ ' "`, by `x` and two hexadecimal digits, or by `u` and one to six
hexadecimal digits in braces that name a Unicode scalar value.

The end of a literal is found without regard to whether its escapes are sound, so a literal with a
bad escape is one invalid token.  No literal runs past the end of its line.
-/

namespace ZigGolf

/-! ### Escapes -/

/-- The numbers of Unicode scalar values. -/
def isScalarValue (n : Nat) : Bool := n ≤ 0x10FFFF && !(0xD800 ≤ n && n ≤ 0xDFFF)

/-- The number of bytes of a braced code point that a text starts with. -/
def bracedLength? : Bytes → Option Nat
  | [] => none
  | opening :: rest =>
    let digits := rest.takeWhile isHexDigit
    if opening == 0x7B && 1 ≤ digits.length && digits.length ≤ 6
        && (rest.drop digits.length).head? == some 0x7D && isScalarValue (hexValue digits) then
      some (digits.length + 2)
    else none

/-- The number of bytes of an escape, the backslash before the text not counted; nothing if the
text does not go on as an escape. -/
def escapeLength? : Bytes → Option Nat
  | [] => none
  | b :: rest =>
    if (ascii "nrt\\'\"").contains b then some 1
    else if b == byte 'x' then
      match rest with
      | high :: low :: _ => if isHexDigit high && isHexDigit low then some 3 else none
      | _ => none
    else if b == byte 'u' then (bracedLength? rest).map (· + 1)
    else none

/-- The texts in which every backslash starts an escape. -/
def wellEscaped : Bytes → Bool
  | [] => true
  | b :: rest =>
    if b == backslash then
      match escapeLength? rest with
      | some n => wellEscaped (rest.drop n)
      | none => false
    else wellEscaped rest
termination_by s => s.length
decreasing_by all_goals simp; try omega

/-! ### Strings -/

/-- The offset of the quote that closes a string, counted from `offset` at the start of the text;
nothing if the line or the text ends first.  A quote or backslash after a backslash is skipped. -/
def closingQuote? (offset : Nat) : Bytes → Option Nat
  | [] => none
  | b :: rest =>
    if b == lineFeed then none
    else if b == quote then some offset
    else if b == backslash then
      match rest with
      | [] => none
      | c :: rest' =>
        if c == quote || c == backslash then closingQuote? (offset + 2) rest'
        else closingQuote? (offset + 1) (c :: rest')
    else closingQuote? (offset + 1) rest

/-- Splits a string literal off a text that starts with a quote: its kind, its bytes, and the
rest.  A string that is not closed ends with its line. -/
def cutString (s : Bytes) : Kind × Bytes × Bytes :=
  match closingQuote? 0 s.tail with
  | some n =>
    (if wellEscaped (s.tail.take n) then .stringLit else .invalid, s.take (n + 2), s.drop (n + 2))
  | none => (.invalid, firstLine s, afterFirstLine s)

/-- A string is cut out with nothing lost. -/
theorem cutString_append (s : Bytes) : (cutString s).2.1 ++ (cutString s).2.2 = s := by
  unfold cutString
  split <;> simp

/-- A string has at least its opening quote. -/
theorem cutString_ne_nil (s : Bytes) : (cutString (quote :: s)).2.1 ≠ [] := by
  unfold cutString
  split
  · simp
  · have h : (quote != lineFeed) = true := by decide
    simp [firstLine, h]

/-! ### Characters -/

/-- The number of bytes between the quotes of a character literal: one escape, or one code point
that is neither a quote nor the end of the line. -/
def charBodyLength? : Bytes → Option Nat
  | [] => none
  | b :: rest =>
    if b == backslash then (escapeLength? rest).map (· + 1)
    else if b == apostrophe || b == lineFeed then none
    else some (Utf8.sequenceLength b)

/-- The number of bytes, after its opening quote, of a text that is no character literal: up to and
with the next quote, or up to the end of the line.  A quote escaped right at the start is no end. -/
def charFaultLength (s : Bytes) : Nat :=
  let escaped := if (ascii "\\'").isPrefixOf s then 2 else 0
  let run := (s.drop escaped).takeWhile fun b => b != apostrophe && b != lineFeed
  let ended := escaped + run.length
  if (s.drop ended).head? == some apostrophe then ended + 1 else ended

/-- The number of bytes of a character literal after its opening quote; nothing if the text does
not go on as one. -/
def charLength? (s : Bytes) : Option Nat :=
  match charBodyLength? s with
  | some n => if (s.drop n).head? == some apostrophe then some (n + 1) else none
  | none => none

/-- Splits a character literal off a text that starts with its quote: its kind, its bytes, and the
rest. -/
def cutChar (s : Bytes) : Kind × Bytes × Bytes :=
  match charLength? s.tail with
  | some n => (.charLit, s.take (n + 1), s.drop (n + 1))
  | none =>
    let n := charFaultLength s.tail
    (.invalid, s.take (n + 1), s.drop (n + 1))

/-- A character is cut out with nothing lost. -/
theorem cutChar_append (s : Bytes) : (cutChar s).2.1 ++ (cutChar s).2.2 = s := by
  unfold cutChar
  split <;> simp

/-- A character has at least its opening quote. -/
theorem cutChar_ne_nil (b : UInt8) (s : Bytes) : (cutChar (b :: s)).2.1 ≠ [] := by
  unfold cutChar
  split <;> simp

end ZigGolf
