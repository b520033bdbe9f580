import ZigGolf.Bytes.Basic

/-!
# Punctuation

The operators and delimiters of Zig.  `Punctuation.all` lists them in the order of their numbers,
and `Punctuation.byLength` in the order in which the lexer tries them: a spelling stands before
every shorter one, so that the first that fits is the longest that fits.
-/

namespace ZigGolf

/-- An operator or delimiter.  In the names of operators `Wrap` stands for arithmetic that wraps
around, `Sat` for arithmetic that saturates, and `Assign` for an operation that assigns its
result. -/
inductive Punctuation where
  | openParen | closeParen | openBrace | closeBrace | openBracket | closeBracket
  | semicolon | colon | comma | question | tilde | arrow | fatArrow
  | period | deref | range | ellipsis
  | assign | equal | bang | notEqual
  | pipe | mergeErrors | orAssign | ampersand | andAssign | caret | xorAssign
  | percent | remAssign | slash | divAssign
  | plus | concat | addAssign
  | addWrap | addWrapAssign | addSat | addSatAssign
  | minus | subAssign
  | subWrap | subWrapAssign | subSat | subSatAssign
  | star | arrayMul | mulAssign
  | mulWrap | mulWrapAssign | mulSat | mulSatAssign
  | less | lessEqual | shiftLeft | shiftLeftAssign | shiftLeftSat | shiftLeftSatAssign
  | greater | greaterEqual | shiftRight | shiftRightAssign
  deriving DecidableEq

namespace Punctuation

/-- How a punctuation is written. -/
def spelling : Punctuation → Bytes
  | openParen => ascii "("
  | closeParen => ascii ")"
  | openBrace => ascii "\x7b"
  | closeBrace => ascii "\x7d"
  | openBracket => ascii "["
  | closeBracket => ascii "]"
  | semicolon => ascii ";"
  | colon => ascii ":"
  | comma => ascii ","
  | question => ascii "?"
  | tilde => ascii "~"
  | arrow => ascii "->"
  | fatArrow => ascii "=>"
  | period => ascii "."
  | deref => ascii ".*"
  | range => ascii ".."
  | ellipsis => ascii "..."
  | assign => ascii "="
  | equal => ascii "=="
  | bang => ascii "!"
  | notEqual => ascii "!="
  | pipe => ascii "|"
  | mergeErrors => ascii "||"
  | orAssign => ascii "|="
  | ampersand => ascii "&"
  | andAssign => ascii "&="
  | caret => ascii "^"
  | xorAssign => ascii "^="
  | percent => ascii "%"
  | remAssign => ascii "%="
  | slash => ascii "/"
  | divAssign => ascii "/="
  | plus => ascii "+"
  | concat => ascii "++"
  | addAssign => ascii "+="
  | addWrap => ascii "+%"
  | addWrapAssign => ascii "+%="
  | addSat => ascii "+|"
  | addSatAssign => ascii "+|="
  | minus => ascii "-"
  | subAssign => ascii "-="
  | subWrap => ascii "-%"
  | subWrapAssign => ascii "-%="
  | subSat => ascii "-|"
  | subSatAssign => ascii "-|="
  | star => ascii "*"
  | arrayMul => ascii "**"
  | mulAssign => ascii "*="
  | mulWrap => ascii "*%"
  | mulWrapAssign => ascii "*%="
  | mulSat => ascii "*|"
  | mulSatAssign => ascii "*|="
  | less => ascii "<"
  | lessEqual => ascii "<="
  | shiftLeft => ascii "<<"
  | shiftLeftAssign => ascii "<<="
  | shiftLeftSat => ascii "<<|"
  | shiftLeftSatAssign => ascii "<<|="
  | greater => ascii ">"
  | greaterEqual => ascii ">="
  | shiftRight => ascii ">>"
  | shiftRightAssign => ascii ">>="

/-- Every punctuation, in the order of their numbers. -/
def all : List Punctuation :=
  [openParen, closeParen, openBrace, closeBrace, openBracket, closeBracket,
    semicolon, colon, comma, question, tilde, arrow, fatArrow,
    period, deref, range, ellipsis,
    assign, equal, bang, notEqual,
    pipe, mergeErrors, orAssign, ampersand, andAssign, caret, xorAssign,
    percent, remAssign, slash, divAssign,
    plus, concat, addAssign,
    addWrap, addWrapAssign, addSat, addSatAssign,
    minus, subAssign,
    subWrap, subWrapAssign, subSat, subSatAssign,
    star, arrayMul, mulAssign,
    mulWrap, mulWrapAssign, mulSat, mulSatAssign,
    less, lessEqual, shiftLeft, shiftLeftAssign, shiftLeftSat, shiftLeftSatAssign,
    greater, greaterEqual, shiftRight, shiftRightAssign]

/-- Every punctuation, in the order in which spellings are tried. -/
def byLength : List Punctuation :=
  [shiftLeftSatAssign,
    shiftLeftAssign, shiftLeftSat, shiftRightAssign, ellipsis,
    addWrapAssign, addSatAssign, subWrapAssign, subSatAssign,
    mulWrapAssign, mulSatAssign,
    mergeErrors, orAssign, equal, fatArrow, notEqual, remAssign, deref, range, xorAssign,
    concat, addAssign, addWrap, addSat,
    subAssign, subWrap, subSat, arrow,
    mulAssign, arrayMul, mulWrap, mulSat,
    divAssign, andAssign, lessEqual, shiftLeft, greaterEqual, shiftRight,
    bang, pipe, assign, openParen, closeParen, semicolon, percent,
    openBrace, closeBrace, openBracket, closeBracket,
    period, caret, plus, minus, star, colon, slash, comma, ampersand, question,
    less, greater, tilde]

/-- The longest punctuation that a text starts with. -/
def longest? (s : Bytes) : Option Punctuation :=
  byLength.find? fun p => p.spelling.isPrefixOf s

theorem mem_all (p : Punctuation) : p ∈ all := by
  cases p <;> decide

theorem mem_byLength (p : Punctuation) : p ∈ byLength := by
  cases p <;> decide

/-- Spellings are tried from long to short. -/
theorem byLength_pairwise :
    byLength.Pairwise fun p q => q.spelling.length ≤ p.spelling.length := by
  decide

theorem spelling_ne_nil (p : Punctuation) : p.spelling ≠ [] := by
  cases p <;> decide

end Punctuation

end ZigGolf
