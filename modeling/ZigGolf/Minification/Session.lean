import ZigGolf.Minification.Minifier

/-!
# Sessions

One minifier and its short names can serve several sources in turn.  A session holds both, with the
one text that all its runs append to and with all that was reported.  A run that is given up appends
nothing, but what it remembered and renamed stays with the session.
-/

namespace ZigGolf

/-- What is kept from one run to the next. -/
structure Session where
  minifier : Minifier := {}
  names : Renaming
  /-- The text that was written so far. -/
  output : Bytes := []
  log : Log := []

namespace Session

/-- A run over what a lexer has left, which reports to the log of the session: whether it went
through, what is left of the source, and the session. -/
def run (session : Session) (lexer : Lexer) : (Bool × Lexer) × Session :=
  let run := session.minifier.run session.names (lexer.attach session.log)
  let log := run.lexer.log.getD []
  match run.pieces with
  | some pieces =>
    ((true, run.lexer), ⟨run.minifier, run.names, session.output ++ Piece.join pieces, log⟩)
  | none => ((false, run.lexer), ⟨run.minifier, run.names, session.output, log⟩)

/-- A run over a whole source, which is a file and its text. -/
def feed (session : Session) (source : UInt32 × Bytes) : Bool × Session :=
  let result := session.run (.ofSource source.1 source.2 none)
  (result.1.1, result.2)

end Session

end ZigGolf
