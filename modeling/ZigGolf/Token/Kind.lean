import ZigGolf.Token.Punctuation
import ZigGolf.Token.Keyword

/-!
# Kinds of tokens

Every token has one of 122 kinds: the end of the input, an invalid piece of text, a name or
literal, a doc comment, one of the punctuations, or one of the keywords.  Kinds are numbered by
their place in `Kind.all`.
-/

namespace ZigGolf

/-- What a token is. -/
inductive Kind where
  /-- The end of the input. -/
  | eof
  /-- Text that is no token of the language. -/
  | invalid
  /-- A name, plain or quoted. -/
  | ident
  /-- A name after the sigil, such as the one that imports a file. -/
  | builtin
  | stringLit
  /-- One line of a multiline string, with the line feed that ends it. -/
  | multilineStringLine
  | charLit
  | intLit
  | floatLit
  /-- A comment that documents what follows it. -/
  | docComment
  /-- A comment that documents what it stands in. -/
  | containerDocComment
  | punct (p : Punctuation)
  | keyword (k : Keyword)
  deriving DecidableEq

namespace Kind

/-- How a kind is called; punctuations and keywords are called by their spelling. -/
def name : Kind → Bytes
  | eof => ascii "eof"
  | invalid => ascii "invalid"
  | ident => ascii "ident"
  | builtin => ascii "builtin"
  | stringLit => ascii "string_lit"
  | multilineStringLine => ascii "multiline_string_line"
  | charLit => ascii "char_lit"
  | intLit => ascii "int_lit"
  | floatLit => ascii "float_lit"
  | docComment => ascii "doc_comment"
  | containerDocComment => ascii "container_doc_comment"
  | punct p => p.spelling
  | keyword k => k.spelling

/-- The kind of a name by its spelling: a keyword if it is spelled as one, else an identifier. -/
def ofName (s : Bytes) : Kind :=
  match Keyword.ofSpelling? s with
  | some k => keyword k
  | none => ident

/-- The keywords. -/
def isKeyword : Kind → Bool
  | keyword _ => true
  | _ => false

/-- The comments that are tokens. -/
def isDocComment : Kind → Bool
  | docComment | containerDocComment => true
  | _ => false

/-- The kinds whose text runs into a neighbour of such a kind when nothing stands between. -/
def isWordLike : Kind → Bool
  | ident | builtin | intLit | floatLit | keyword _ => true
  | _ => false

/-! ### Numbers -/

/-- Every kind, in the order of their numbers. -/
def all : List Kind :=
  [eof, invalid, ident, builtin, stringLit, multilineStringLine, charLit, intLit, floatLit,
      docComment, containerDocComment]
    ++ Punctuation.all.map punct ++ Keyword.all.map keyword

/-- How many kinds there are. -/
def count : Nat := all.length

/-- The kind with a given number. -/
def ofNumber? (n : Nat) : Option Kind := all[n]?

/-- The number of a kind. -/
def number (k : Kind) : Nat := all.idxOf k

/-- How the kind with a given number is called; a number without a kind is called unknown. -/
def nameOfNumber (n : Nat) : Bytes :=
  match ofNumber? n with
  | some k => k.name
  | none => ascii "unknown"

theorem mem_all (k : Kind) : k ∈ all := by
  cases k with
  | punct p => simp [all, Punctuation.mem_all]
  | keyword k => simp [all, Keyword.mem_all]
  | _ => simp [all]

/-- The number of a kind leads back to it. -/
theorem ofNumber?_number (k : Kind) : ofNumber? k.number = some k := by
  have h := List.idxOf_lt_length_iff.2 (mem_all k)
  simp only [ofNumber?, number, List.getElem?_eq_getElem h]
  simp

end Kind

end ZigGolf
