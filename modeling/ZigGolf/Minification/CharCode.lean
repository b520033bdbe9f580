import ZigGolf.Bytes.Basic

/-!
# Character literals as numbers

A character literal is an integer of the language, so it may be written as its decimal code.  That
is done for a single byte between quotes and for the escaped line feed, where it never takes more
bytes.  All other escapes, and code points of several bytes, stay as they are.
-/

namespace ZigGolf

/-- The code of a character literal that is written as a number. -/
def charCode? : Bytes → Option UInt8
  | [opening, b, closing] =>
    if opening == apostrophe && closing == apostrophe && b != backslash then some b else none
  | s => if s == ascii "'\\n'" then some lineFeed else none

/-- How a character literal is written: its code if that is done for it, else the literal. -/
def charText (s : Bytes) : Bytes :=
  match charCode? s with
  | some b => decimal b.toNat
  | none => s

end ZigGolf
