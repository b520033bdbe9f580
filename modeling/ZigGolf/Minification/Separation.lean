import ZigGolf.Token.Kind

/-!
# Separation

When a space has to stand between two tokens.  Names, builtins, numerals and keywords run into one
another; a builtin starts with its sigil, which sets it off from whatever stands before it.
-/

namespace ZigGolf

/-- Whether a space is written between tokens of two kinds. -/
def mustSeparate (previous current : Kind) : Bool :=
  current != .builtin && previous.isWordLike && current.isWordLike

/-- Whether a space is written between tokens whose kinds have given numbers.  A number without a
kind needs none. -/
def mustSeparateNumbered (previous current : Nat) : Bool :=
  match Kind.ofNumber? previous, Kind.ofNumber? current with
  | some p, some c => mustSeparate p c
  | _, _ => false

/-- The spellings of identifiers that start with the sigil and so are quoted.  Sigil and closing
quote set them off on both sides. -/
def isQuotedSpelling : Bytes → Bool
  | sigil :: _ :: _ => sigil == atSign
  | _ => false

end ZigGolf
