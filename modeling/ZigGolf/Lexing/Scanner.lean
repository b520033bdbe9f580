import ZigGolf.Diagnostic.Basic
import ZigGolf.Lexing.Lexeme

/-!
# Scanners

A lexer stands at some place of a source and may keep a log.  A scanner reads one sort of token from
the place where the lexer stands: it finds the end of the token, and either accepts what it has
passed over as a token or rejects it.  What is rejected becomes an invalid token, and it is reported
there and then.

Whatever a scanner does, it reads the lexeme that the text has at that place, and it reports that
lexeme once if it is invalid and not at all if it is valid (`scanNumber_eq`, `scanString_eq` and so
on, and for the whole dispatch `scan_eq_some` and `scan_eq_none`).
-/

namespace ZigGolf

/-- A source that is being read. -/
structure Lexer where
  /-- The number of the file. -/
  file : UInt32
  /-- Where the lexer stands. -/
  offset : Nat := 0
  /-- What is left of the source from there on. -/
  rest : Bytes
  /-- Whether it has been looked at whether the source is UTF-8. -/
  checked : Bool := false
  /-- What has been reported; nothing if no log is kept. -/
  recorded : Option (Array Diagnostic)

namespace Lexer

/-- A lexer at the start of a source, which adds to a log if one is given. -/
def ofSource (file : UInt32) (source : Bytes) (log : Option Log) : Lexer where
  file := file
  rest := source
  recorded := log.map List.toArray

/-- The log, if one is kept. -/
def log (lexer : Lexer) : Option Log := lexer.recorded.map Array.toList

/-- The lexer with a log to add to. -/
def attach (lexer : Lexer) (log : Log) : Lexer := { lexer with recorded := some log.toArray }

/-- Records a report, if a log is kept. -/
def report (lexer : Lexer) (d : Diagnostic) : Lexer :=
  { lexer with recorded := lexer.recorded.map (·.push d) }

/-- Passes over some bytes, as far as there are any. -/
def skip (lexer : Lexer) (n : Nat) : Lexer :=
  { lexer with
    offset := lexer.offset + (lexer.rest.take n).length
    rest := lexer.rest.drop n }

/-! ### Tokens that have been passed over -/

/-- The token from the place where `start` stands up to the place where the lexer stands. -/
def tokenFrom (lexer start : Lexer) (kind : Kind) : Token where
  kind := kind
  span := ⟨lexer.file, start.offset.toUInt32, lexer.offset.toUInt32⟩
  lexeme := start.rest.take (lexer.offset - start.offset)

/-- Accepts what has been passed over as a token. -/
def accept (lexer start : Lexer) (kind : Kind) : Token × Lexer :=
  (lexer.tokenFrom start kind, lexer)

/-- Rejects what has been passed over: it is an invalid token, and it is reported. -/
def reject (lexer start : Lexer) : Token × Lexer :=
  let t := lexer.tokenFrom start .invalid
  (t, lexer.report (.invalidToken t))

/-! ### One sort of token each -/

/-- Scans a doc comment. -/
def scanDocComment (start : Lexer) : Token × Lexer :=
  let kind := if start.rest[2]? = some (byte '!') then .containerDocComment else .docComment
  (start.skip (firstLine start.rest).length).accept start kind

/-- Scans a numeral.  One that is unsound, or that runs into a name, takes all of that name with
it. -/
def scanNumber (start : Lexer) : Token × Lexer :=
  let n := Numeral.read start.rest
  if n.sound && !n.rest.head?.any isNamePart then
    (start.skip n.text.length).accept start (if n.isFloat then .floatLit else .intLit)
  else
    (start.skip (n.text ++ n.rest.takeWhile isNamePart).length).reject start

/-- Scans a string literal.  One that is not closed ends with its line, and one with a bad escape
with its closing quote. -/
def scanString (start : Lexer) : Token × Lexer :=
  match closingQuote? 0 start.rest.tail with
  | some n =>
    let lexer := start.skip (n + 2)
    if wellEscaped (start.rest.tail.take n) then lexer.accept start .stringLit
    else lexer.reject start
  | none => (start.skip (firstLine start.rest).length).reject start

/-- Scans a line of a multiline string, with its line feed. -/
def scanMultilineStringLine (start : Lexer) : Token × Lexer :=
  (start.skip ((firstLine start.rest).length + 1)).accept start .multilineStringLine

/-- Scans a character literal. -/
def scanChar (start : Lexer) : Token × Lexer :=
  match charLength? start.rest.tail with
  | some n => (start.skip (n + 1)).accept start .charLit
  | none => (start.skip (charFaultLength start.rest.tail + 1)).reject start

/-- Scans what a sigil introduces.  The string of a quoted identifier is scanned as a string; if it
is invalid that is the token, and it has been reported already. -/
def scanSigil (start : Lexer) : Token × Lexer :=
  let name := start.skip 1
  if name.rest.head? = some quote then
    let (t, lexer) := name.scanString
    if t.kind = .invalid then (t, lexer) else lexer.accept start .ident
  else if name.rest.head?.any isNameStart then
    (name.skip (name.rest.takeWhile isNamePart).length).accept start .builtin
  else name.reject start

/-- Scans a name or keyword. -/
def scanName (start : Lexer) : Token × Lexer :=
  let name := start.rest.takeWhile isNamePart
  (start.skip name.length).accept start (Kind.ofName name)

/-- Scans a punctuation; if none stands there, the code point that starts with `b` is rejected. -/
def scanPunctuation (start : Lexer) (b : UInt8) : Token × Lexer :=
  match Punctuation.longest? start.rest with
  | some p => (start.skip p.spelling.length).accept start (.punct p)
  | none => (start.skip (Utf8.sequenceLength b)).reject start

/-! ### Any token -/

/-- Scans the token that starts with `b`, by the bytes that it starts with. -/
def scanToken (start : Lexer) (b : UInt8) : Token × Lexer :=
  if startsComment start.rest then start.scanDocComment
  else if isDigit b then start.scanNumber
  else if b == quote then start.scanString
  else if b == apostrophe then start.scanChar
  else if b == backslash && start.rest.tail.head? == some backslash then
    start.scanMultilineStringLine
  else if b == atSign then start.scanSigil
  else if isNameStart b then start.scanName
  else start.scanPunctuation b

/-- Passes over blanks and plain comments. -/
def skipGap (lexer : Lexer) : Lexer := lexer.skip (splitGap lexer.rest).1.flatten.length

/-- Scans the next token of a source that is known to be UTF-8. -/
def scan (lexer : Lexer) : Token × Lexer :=
  let start := lexer.skipGap
  match start.rest.head? with
  | none => start.accept start .eof
  | some b => start.scanToken b

/-! ### Scanners read lexemes -/

/-- What comes of reading a lexeme that stands at the front of what is left: its token at its place,
and a lexer behind it.  The lexer has recorded one report, about that very token, if the lexeme is
invalid, and no report if it is valid. -/
def readLexeme (start : Lexer) (cut : Lexeme × Bytes) : Token × Lexer :=
  let (t, offset) := cut.1.place start.file start.offset
  (t, { start with
    offset
    rest := cut.2
    recorded :=
      if cut.1.kind = .invalid then start.recorded.map (·.push (.invalidToken t))
      else start.recorded })

/-- What comes of reading the end: a token without bytes, and a lexer that stands there. -/
def readEnd (lexer : Lexer) : Token × Lexer :=
  let offset := lexer.offset + lexer.rest.length
  (.atEnd lexer.file offset, { lexer with offset, rest := [] })

variable {start : Lexer} {text rest : Bytes} {kind : Kind}

/-- The token that has been passed over is that of the bytes at the place of `start`. -/
theorem tokenFrom_skip (start : Lexer) (kind : Kind) (n : Nat) :
    (start.skip n).tokenFrom start kind =
      (Lexeme.place start.file start.offset ⟨[], kind, start.rest.take n⟩).1 := by
  simp [tokenFrom, skip, Lexeme.place, List.take_eq_take_iff]

/-- What is accepted is read as a valid lexeme. -/
theorem accept_skip (start : Lexer) (hkind : kind ≠ .invalid) (n : Nat) :
    (start.skip n).accept start kind =
      start.readLexeme (Lexeme.ofCut (kind, start.rest.take n, start.rest.drop n)) := by
  rw [accept, tokenFrom_skip]
  simp [readLexeme, Lexeme.ofCut, Lexeme.place, skip, hkind]

/-- What is rejected is read as an invalid lexeme. -/
theorem reject_skip (start : Lexer) (n : Nat) :
    (start.skip n).reject start =
      start.readLexeme (Lexeme.ofCut (.invalid, start.rest.take n, start.rest.drop n)) := by
  rw [reject, tokenFrom_skip]
  simp [readLexeme, Lexeme.ofCut, Lexeme.place, skip, report]

/-- A text at the front of what is left is accepted as a valid lexeme. -/
theorem accept_skip_length (h : text ++ rest = start.rest) (hkind : kind ≠ .invalid) :
    (start.skip text.length).accept start kind =
      start.readLexeme (Lexeme.ofCut (kind, text, rest)) := by
  rw [accept_skip start hkind, ← h, List.take_left, List.drop_left]

/-- A text at the front of what is left is rejected as an invalid lexeme. -/
theorem reject_skip_length (h : text ++ rest = start.rest) :
    (start.skip text.length).reject start =
      start.readLexeme (Lexeme.ofCut (.invalid, text, rest)) := by
  rw [reject_skip, ← h, List.take_left, List.drop_left]

/-- A doc comment is never reported. -/
theorem scanDocComment_eq (start : Lexer) :
    start.scanDocComment = start.readLexeme (Lexeme.ofCut (cutDocComment start.rest)) := by
  unfold scanDocComment cutDocComment
  refine accept_skip_length (firstLine_append_afterFirstLine _) ?_
  split <;> simp

/-- A numeral is reported if it is rejected, and else not. -/
theorem scanNumber_eq (start : Lexer) :
    start.scanNumber = start.readLexeme (Lexeme.ofCut (cutNumber start.rest)) := by
  have hread := Numeral.read_append start.rest
  unfold scanNumber cutNumber
  dsimp only
  split
  · refine accept_skip_length hread ?_
    split <;> simp
  · refine reject_skip_length ?_
    rw [List.append_assoc, List.takeWhile_append_dropWhile, hread]

/-- A string is reported once, whether it is not closed or has a bad escape. -/
theorem scanString_eq (start : Lexer) :
    start.scanString = start.readLexeme (Lexeme.ofCut (cutString start.rest)) := by
  unfold scanString cutString
  cases closingQuote? 0 start.rest.tail with
  | none => exact reject_skip_length (firstLine_append_afterFirstLine _)
  | some n =>
    dsimp only
    split
    · exact accept_skip start Kind.noConfusion (n + 2)
    · exact reject_skip start (n + 2)

/-- A line of a multiline string is never reported. -/
theorem scanMultilineStringLine_eq (start : Lexer) :
    start.scanMultilineStringLine =
      start.readLexeme (Lexeme.ofCut (cutMultilineStringLine start.rest)) :=
  accept_skip start Kind.noConfusion _

/-- A character literal is reported if it is rejected, and else not. -/
theorem scanChar_eq (start : Lexer) :
    start.scanChar = start.readLexeme (Lexeme.ofCut (cutChar start.rest)) := by
  unfold scanChar cutChar
  cases charLength? start.rest.tail with
  | none => exact reject_skip start _
  | some n => exact accept_skip start Kind.noConfusion _

/-- A lexeme behind some bytes is read as one with these bytes in front of it. -/
theorem readLexeme_skip (start : Lexer) (n : Nat) (l : Lexeme) (rest : Bytes) :
    (start.skip n).readLexeme (l, rest) =
      start.readLexeme ({ l with gap := start.rest.take n ++ l.gap }, rest) := by
  simp [readLexeme, skip, Lexeme.place, Nat.add_assoc]

/-- Bytes can be passed over in two goes. -/
theorem skip_skip (start : Lexer) (m n : Nat) : (start.skip m).skip n = start.skip (m + n) := by
  simp only [skip, List.take_add, List.drop_drop, List.length_append, Nat.add_assoc]

/-- Behind a valid lexeme nothing has changed but the place. -/
theorem snd_readLexeme (h : text ++ rest = start.rest) (hkind : kind ≠ .invalid) :
    (start.readLexeme (Lexeme.ofCut (kind, text, rest))).2 = start.skip text.length := by
  simp [readLexeme, Lexeme.ofCut, Lexeme.place, skip, hkind, ← h]

/-- What is accepted behind a sigil is read together with the sigil. -/
theorem accept_skip_sigil {s : Bytes} (h : start.rest = atSign :: s) (happend : text ++ rest = s)
    (hkind : kind ≠ .invalid) :
    ((start.skip 1).skip text.length).accept start kind =
      start.readLexeme (⟨[], kind, atSign :: text⟩, rest) := by
  rw [skip_skip, Nat.add_comm]
  have hwhole : (atSign :: text) ++ rest = start.rest := by rw [h, ← happend, List.cons_append]
  exact accept_skip_length hwhole hkind

/-- What a sigil introduces is reported once if it is invalid.  The string of a quoted identifier
has been reported where it was scanned, with the place and the text of the string alone. -/
theorem scanSigil_eq {s : Bytes} (h : start.rest = atSign :: s) :
    start.scanSigil = start.readLexeme (cutAfterSigil s) := by
  have hname : (start.skip 1).rest = s := by simp [skip, h]
  unfold scanSigil cutAfterSigil
  dsimp only
  rw [hname]
  split
  · have happend := cutString_append s
    rw [scanString_eq, hname]
    rcases hcut : cutString s with ⟨kind, text, rest⟩
    rw [hcut] at happend
    by_cases hkind : kind = .invalid
    · -- the string is the token, and nothing is added to its report
      have hskip := readLexeme_skip start 1 ⟨[], kind, text⟩ rest
      rw [h] at hskip
      subst hkind
      exact hskip
    · have hfst : ((start.skip 1).readLexeme (Lexeme.ofCut (kind, text, rest))).1.kind ≠
          .invalid := hkind
      rw [if_neg hfst, snd_readLexeme (happend.trans hname.symm) hkind,
        accept_skip_sigil h happend Kind.noConfusion]
      split
      · next heq => exact absurd (Prod.mk.inj heq).1 hkind
      · next heq =>
        obtain ⟨-, htail⟩ := Prod.mk.inj heq
        rw [← (Prod.mk.inj htail).1, ← (Prod.mk.inj htail).2]
  split
  · exact accept_skip_sigil h List.takeWhile_append_dropWhile Kind.noConfusion
  · have hreject := reject_skip start 1
    rw [h] at hreject
    exact hreject

/-- A name or keyword is never reported. -/
theorem scanName_eq (start : Lexer) :
    start.scanName = start.readLexeme (Lexeme.ofCut (cutName start.rest)) := by
  unfold scanName cutName
  refine accept_skip_length List.takeWhile_append_dropWhile ?_
  unfold Kind.ofName
  split <;> simp

/-- A code point is reported if no punctuation stands there. -/
theorem scanPunctuation_eq {b : UInt8} {s : Bytes} (h : start.rest = b :: s) :
    start.scanPunctuation b = start.readLexeme (Lexeme.ofCut (cutPunctuation b s)) := by
  have happend := cutPunctuation_append b s
  unfold scanPunctuation
  unfold cutPunctuation at happend ⊢
  rw [← h] at happend ⊢
  cases hp : Punctuation.longest? start.rest with
  | none => exact reject_skip start _
  | some p =>
    rw [hp] at happend
    exact accept_skip_length happend Kind.noConfusion

/-- Whatever token stands at the front of what is left, it is read as the lexeme there. -/
theorem scanToken_eq {b : UInt8} {s : Bytes} (h : start.rest = b :: s) :
    start.scanToken b = start.readLexeme (cutToken b s) := by
  unfold scanToken cutToken
  rw [scanDocComment_eq, scanNumber_eq, scanString_eq, scanChar_eq, scanMultilineStringLine_eq,
    scanName_eq, scanPunctuation_eq h, h, List.tail_cons]
  -- the branches are the same on both sides; only what a sigil introduces is still to be rewritten
  repeat' split
  all_goals try rfl
  next hsigil => exact scanSigil_eq (h.trans (by rw [beq_iff_eq.1 hsigil]))

/-- Behind the gap stands what is split off from it. -/
theorem rest_skipGap (lexer : Lexer) : lexer.skipGap.rest = (splitGap lexer.rest).2 := by
  have hdrop : ((splitGap lexer.rest).1.flatten ++ (splitGap lexer.rest).2).drop
      (splitGap lexer.rest).1.flatten.length = (splitGap lexer.rest).2 := List.drop_left
  rwa [splitGap_append] at hdrop

/-- If there is a lexeme, it is what is scanned. -/
theorem scan_eq_some {lexer : Lexer} {cut : Lexeme × Bytes}
    (h : nextLexeme? lexer.rest = some cut) : lexer.scan = lexer.readLexeme cut := by
  have hrest := rest_skipGap lexer
  have happend := splitGap_append lexer.rest
  unfold nextLexeme? at h
  split at h
  · simp at h
  · next gap b s hsplit =>
    rw [hsplit] at hrest happend
    have hgap : lexer.rest.take gap.flatten.length = gap.flatten := by
      rw [← happend]
      exact List.take_left
    have hskip := readLexeme_skip lexer gap.flatten.length (cutToken b s).1 (cutToken b s).2
    rw [hgap] at hskip
    rw [scan, hrest, ← Option.some.inj h]
    dsimp only [List.head?_cons]
    rw [scanToken_eq hrest, skipGap, hsplit]
    exact hskip

/-- If there is none, the end is scanned. -/
theorem scan_eq_none {lexer : Lexer} (h : nextLexeme? lexer.rest = none) :
    lexer.scan = lexer.readEnd := by
  have hrest := rest_skipGap lexer
  have happend := splitGap_append lexer.rest
  unfold nextLexeme? at h
  split at h
  · next gap hsplit =>
    rw [hsplit] at hrest happend
    rw [scan, hrest]
    rw [List.append_nil] at happend
    simp [accept, tokenFrom, skipGap, skip, hsplit, happend, readEnd, Token.atEnd]
  · simp at h

end Lexer

end ZigGolf
