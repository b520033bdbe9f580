import ZigGolf.Token.Kind

/-!
# Tokens

A token is a kind, the bytes it was read from, and the place of those bytes.
-/

namespace ZigGolf

/-- A half-open range of byte offsets in a source file.  Offsets and file numbers are 32-bit
words. -/
structure Span where
  /-- The number of the file. -/
  file : UInt32
  /-- The offset of the first byte. -/
  lo : UInt32
  /-- The offset after the last byte. -/
  hi : UInt32
  deriving DecidableEq

/-- A token of a source text. -/
structure Token where
  /-- What the token is. -/
  kind : Kind
  /-- Where it stands. -/
  span : Span
  /-- The bytes it was read from. -/
  lexeme : Bytes
  deriving DecidableEq

namespace Token

/-- The end of a source of a given size. -/
def atEnd (file : UInt32) (size : Nat) : Token where
  kind := .eof
  span := ⟨file, size.toUInt32, size.toUInt32⟩
  lexeme := []

/-! ### Listing tokens -/

/-- The bytes of a token as a listing shows them.  The line feed that ends a line of a multiline
string is left out, so that the listing has one line per token. -/
def shown (t : Token) : Bytes :=
  if t.lexeme.getLast? = some lineFeed then t.lexeme.dropLast else t.lexeme

/-- What a listing says about a token: its kind, its bytes as shown, and its offsets. -/
def entry (t : Token) : Bytes :=
  ascii "  " ++ t.kind.name ++ ascii " '" ++ t.shown ++ ascii "' @" ++ decimal t.span.lo.toNat
    ++ ascii ".." ++ decimal t.span.hi.toNat

/-- The line about a token in a listing. -/
def listingLine (t : Token) : Bytes := t.entry ++ [lineFeed]

/-- A listing of tokens under its heading. -/
def listing (ts : List Token) : Bytes :=
  ascii "TOKENS:\n" ++ (ts.map listingLine).flatten

end Token

end ZigGolf
