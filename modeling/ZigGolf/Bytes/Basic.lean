/-!
# Byte strings

Program text is a list of bytes: it may hold zero bytes and need not be well-formed UTF-8, and
every offset and length in this library counts bytes.  This file fixes the type, the bytes that
have a meaning of their own for the lexical grammar, and the byte classes the grammar is written
in.  All classes are ASCII classes, so a byte of a longer UTF-8 sequence belongs to none of them.
-/

namespace ZigGolf

/-- A text, as the bytes it is stored as. -/
abbrev Bytes := List UInt8

/-- The byte of an ASCII character. -/
def byte (c : Char) : UInt8 := c.toNat.toUInt8

/-- The bytes of an ASCII string. -/
def ascii (s : String) : Bytes := s.toList.map byte

/-- The decimal digits of a number, without leading zeros. -/
def decimal (n : Nat) : Bytes := (Nat.toDigits 10 n).map byte

/-- The decimal digits of an integer, after a minus sign if it is negative. -/
def decimalInt : Int → Bytes
  | .ofNat n => decimal n
  | .negSucc n => byte '-' :: decimal (n + 1)

/-! ### Bytes with a meaning of their own -/

/-- The byte that ends a line. -/
abbrev lineFeed : UInt8 := 0x0A

/-- The byte that, directly before a line feed, belongs to the line end. -/
abbrev carriageReturn : UInt8 := 0x0D

/-- The separator written between tokens. -/
abbrev space : UInt8 := 0x20

/-- The delimiter of string literals and quoted identifiers. -/
abbrev quote : UInt8 := 0x22

/-- The delimiter of character literals. -/
abbrev apostrophe : UInt8 := 0x27

/-- The byte that starts a comment when doubled, and divides the names of a path. -/
abbrev slash : UInt8 := 0x2F

/-- The sigil of builtins and quoted identifiers. -/
abbrev atSign : UInt8 := 0x40

/-- The byte that starts an escape, and when doubled a line of a multiline string. -/
abbrev backslash : UInt8 := 0x5C

/-- The digit separator of numerals, and a letter of identifiers. -/
abbrev underscore : UInt8 := 0x5F

/-! ### Byte classes -/

/-- The bytes that separate tokens and mean nothing else: space, tab, line feed, carriage
return. -/
def isBlank (b : UInt8) : Bool :=
  b == space || b == 0x09 || b == lineFeed || b == carriageReturn

/-- The decimal digits. -/
def isDigit (b : UInt8) : Bool := 0x30 ≤ b && b ≤ 0x39

/-- The letters of the English alphabet, in either case. -/
def isLetter (b : UInt8) : Bool := 0x41 ≤ b && b ≤ 0x5A || 0x61 ≤ b && b ≤ 0x7A

/-- The hexadecimal digits, in either case. -/
def isHexDigit (b : UInt8) : Bool :=
  isDigit b || 0x41 ≤ b && b ≤ 0x46 || 0x61 ≤ b && b ≤ 0x66

/-- The bytes an identifier may start with. -/
def isNameStart (b : UInt8) : Bool := isLetter b || b == underscore

/-- The bytes an identifier may go on with. -/
def isNamePart (b : UInt8) : Bool := isNameStart b || isDigit b

/-- The value of a hexadecimal digit; for any other byte the result has no meaning. -/
def hexDigitValue (b : UInt8) : Nat :=
  if isDigit b then b.toNat - 0x30
  else if b ≤ 0x5A then b.toNat - 0x41 + 10
  else b.toNat - 0x61 + 10

/-- The number that a run of hexadecimal digits writes. -/
def hexValue (digits : Bytes) : Nat :=
  digits.foldl (fun n b => 16 * n + hexDigitValue b) 0

/-- A spelling that can stand as an identifier without quotes, as far as its bytes go. -/
def isPlainName : Bytes → Bool
  | [] => false
  | b :: rest => isNameStart b && rest.all isNamePart

end ZigGolf
