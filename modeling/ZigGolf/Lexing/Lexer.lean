import ZigGolf.Lexing.Scanner

/-!
# Lexers

A lexer reads a source token by token.  Before the first token it looks whether the source is UTF-8.
A source that is not UTF-8 is reported and given up: its one token is the byte at which it stops
being UTF-8, and then it is at its end.  A lexer at the end of its source gives the end for ever.

`readAll` reads on until the end has been read.  `lex` gives the tokens of a source and `lexReports`
what is reported about them.
-/

namespace ZigGolf

namespace Lexer

/-- Reports the byte at which the source that lies ahead stops being UTF-8.  The place is cut off at
the end of the source. -/
def reportMalformed (lexer : Lexer) (offset : Nat) (b : UInt8) : Lexer :=
  let hi := min (offset.toUInt32 + 1) lexer.rest.length.toUInt32
  lexer.report (.malformedSource ⟨lexer.file, offset.toUInt32, hi⟩ b)

/-- Gives up a source at the byte at which it stops being UTF-8: nothing behind that byte can be
trusted. -/
def giveUp (lexer : Lexer) (offset : Nat) (b : UInt8) : Token × Lexer :=
  let reported := lexer.reportMalformed offset b
  (⟨.invalid, ⟨lexer.file, offset.toUInt32, offset.toUInt32 + 1⟩, [b]⟩,
    { reported.skip reported.rest.length with checked := true })

/-- Reads the next token. -/
def next (lexer : Lexer) : Token × Lexer :=
  if lexer.checked then lexer.scan
  else
    match Utf8.malformed? lexer.rest with
    | some (offset, b) => lexer.giveUp offset b
    | none => { lexer with checked := true }.scan

/-! ### Nothing is read twice -/

/-- Behind a token that is not the end there is less left to read. -/
theorem scan_shrinks {lexer : Lexer} (h : lexer.scan.1.kind ≠ .eof) :
    lexer.scan.2.rest.length < lexer.rest.length := by
  cases hnext : nextLexeme? lexer.rest with
  | none =>
    rw [scan_eq_none hnext] at h
    exact absurd rfl h
  | some cut =>
    rw [scan_eq_some hnext]
    exact nextLexeme?_shrinks hnext

/-- Behind a token that is not the end there is less left to read, also when a source is given up.
-/
theorem next_shrinks {lexer : Lexer} (h : lexer.next.1.kind ≠ .eof) :
    lexer.next.2.rest.length < lexer.rest.length := by
  unfold next at h ⊢
  cases hchecked : lexer.checked with
  | true =>
    rw [hchecked] at h
    exact scan_shrinks h
  | false =>
    rw [hchecked] at h
    cases hmalformed : Utf8.malformed? lexer.rest with
    | none =>
      rw [hmalformed] at h
      exact scan_shrinks h
    | some p =>
      have hrest : (lexer.giveUp p.1 p.2).2.rest = [] := List.drop_length
      have hpos := Utf8.length_pos_of_malformed? hmalformed
      simpa [hrest] using hpos

/-! ### All tokens -/

/-- The loop of `readAll`, with the tokens that have been read so far. -/
def readAllFrom (read : Array Token) (lexer : Lexer) : List Token × Lexer :=
  let next := lexer.next
  if _h : next.1.kind = .eof then ((read.push next.1).toList, next.2)
  else readAllFrom (read.push next.1) next.2
termination_by lexer.rest.length
decreasing_by exact next_shrinks _h

/-- Reads all tokens, the end included. -/
def readAll (lexer : Lexer) : List Token × Lexer := readAllFrom #[] lexer

end Lexer

/-- The tokens of a source, the end included. -/
def lex (file : UInt32) (source : Bytes) : List Token := (Lexer.ofSource file source none).readAll.1

/-- The reports about a source. -/
def lexReports (file : UInt32) (source : Bytes) : Log :=
  (Lexer.ofSource file source (some [])).readAll.2.log.getD []

end ZigGolf
