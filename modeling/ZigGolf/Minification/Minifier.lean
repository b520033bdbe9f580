import ZigGolf.Lexing.Lexer
import ZigGolf.Naming.Renaming
import ZigGolf.Minification.CharCode
import ZigGolf.Minification.Separation

/-!
# Minification

The minifier writes tokens one after the other, as short as it can: doc comments are left out,
names that a program has chosen are renamed, some character literals become numbers, and a space is
written only where two tokens would run into one another.

An identifier directly after a period names a member of something else and keeps its spelling.  The
minifier goes from one token to the next, and all it remembers is what it wrote last.

`minifyRun` gives what is written piece by piece, and `minify` gives the text.
-/

namespace ZigGolf

/-! ### What is written -/

/-- A token as it is written. -/
structure Piece where
  /-- Whether a space is written before it. -/
  spaced : Bool
  /-- What is written: a character literal written as a number is an integer. -/
  kind : Kind
  text : Bytes
  deriving DecidableEq

/-- The bytes of a piece, with the space before it. -/
def Piece.bytes (p : Piece) : Bytes := if p.spaced then space :: p.text else p.text

/-- The bytes of several pieces. -/
def Piece.join (ps : List Piece) : Bytes := (ps.map Piece.bytes).flatten

@[simp] theorem Piece.join_nil : Piece.join [] = [] := rfl

@[simp] theorem Piece.join_cons (p : Piece) (ps : List Piece) :
    Piece.join (p :: ps) = p.bytes ++ Piece.join ps := by
  simp [Piece.join]

/-- Pieces are written one after the other. -/
theorem Piece.join_append (ps qs : List Piece) :
    Piece.join (ps ++ qs) = Piece.join ps ++ Piece.join qs := by
  simp [Piece.join]

/-! ### Writing tokens -/

/-- What is remembered from one token to the next. -/
structure Minifier where
  /-- The kind of what was written last; at the start, a kind that nothing runs into. -/
  last : Kind := .invalid
  /-- Whether a quoted identifier was written last. -/
  lastQuoted : Bool := false
  /-- Whether a run has ended. -/
  finished : Bool := false

namespace Minifier

/-- What is written for a token, without the space before it. -/
def spell (m : Minifier) (names : Renaming) (t : Token) : (Kind × Bytes) × Renaming :=
  match t.kind with
  | .ident =>
    if m.last = .punct .period then ((.ident, t.lexeme), names)
    else
      let renamed := names.renameIdentifier t.lexeme
      ((.ident, renamed.1), renamed.2)
  | .charLit =>
    match charCode? t.lexeme with
    | some code => ((.intLit, decimal code.toNat), names)
    | none => ((.charLit, t.lexeme), names)
  | kind => ((kind, t.lexeme), names)

/-- Writes one token.  A quoted identifier needs no space on either side. -/
def write (state : Minifier × Renaming) (t : Token) : Piece × (Minifier × Renaming) :=
  let m := state.1
  let spelled := m.spell state.2 t
  let kind := spelled.1.1
  let text := spelled.1.2
  let quoted := kind == .ident && isQuotedSpelling text
  let spaced := !quoted && !m.lastQuoted && mustSeparate m.last kind
  (⟨spaced, kind, text⟩, ({ m with last := kind, lastQuoted := quoted }, spelled.2))

/-! ### Runs -/

/-- A run on its way. -/
structure Draft where
  minifier : Minifier
  names : Renaming
  /-- What is left of the source, with the log that lexer and minifier share. -/
  lexer : Lexer
  /-- What has been written so far. -/
  pieces : Array Piece := #[]

/-- Takes one token; tells whether the run goes on.  An invalid token is reported as the reason why
the source is given up, and a doc comment leaves no trace. -/
def step (draft : Draft) (t : Token) : Bool × Draft :=
  if t.kind = .invalid then
    (false, { draft with lexer := draft.lexer.report (.invalidSource t.span) })
  else if t.kind.isDocComment then (true, draft)
  else
    let (piece, minifier, names) := write (draft.minifier, draft.names) t
    (true, { draft with minifier, names, pieces := draft.pieces.push piece })

/-- A run goes on with the lexer as it stands. -/
theorem lexer_step_of_true {draft : Draft} {t : Token} (h : (step draft t).1 = true) :
    (step draft t).2.lexer = draft.lexer := by
  unfold step at h ⊢
  split at h
  · simp at h
  · next hkind =>
    rw [if_neg hkind]
    split <;> rfl

/-- Takes token after token; tells whether the end was reached. -/
def proceed (draft : Draft) : Bool × Draft :=
  let next := draft.lexer.next
  let draft' := { draft with lexer := next.2 }
  if _hend : next.1.kind = .eof then (true, draft')
  else
    let stepped := step draft' next.1
    if _hstep : stepped.1 = true then proceed stepped.2 else (false, stepped.2)
termination_by draft.lexer.rest.length
decreasing_by
  rw [lexer_step_of_true _hstep]
  exact Lexer.next_shrinks _hend

/-- What comes of a run. -/
structure Run where
  /-- What was written; nothing if an invalid token was met. -/
  pieces : Option (List Piece)
  minifier : Minifier
  names : Renaming
  /-- What is left of the source, and what was reported on the way. -/
  lexer : Lexer

/-- Writes what a lexer has left up to its end.  At an invalid token the run is given up: nothing is
written, and the lexer stands behind that token.  What was remembered and renamed up to there stays
so. -/
def run (m : Minifier) (names : Renaming) (lexer : Lexer) : Run :=
  let (ended, draft) := proceed { minifier := m, names, lexer }
  { pieces := if ended then some draft.pieces.toList else none
    minifier := { draft.minifier with finished := true }
    names := draft.names
    lexer := draft.lexer }

end Minifier

/-- The run of a fresh minifier over a whole source. -/
def minifyRun (ptr64 : Bool) (file : UInt32) (source : Bytes) : Minifier.Run :=
  Minifier.run {} { ptr64 } (Lexer.ofSource file source (some []))

/-- The minified text of a source, or nothing if the source has an invalid token, and what was
reported. -/
def minify (ptr64 : Bool) (file : UInt32) (source : Bytes) : Option Bytes × Log :=
  let run := minifyRun ptr64 file source
  (run.pieces.map Piece.join, run.lexer.log.getD [])

end ZigGolf
