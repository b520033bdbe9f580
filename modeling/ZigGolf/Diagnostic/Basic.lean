import ZigGolf.Token.Basic

/-!
# Diagnostics

A diagnostic says how bad something is, what it is, where it is, and which texts its message
mentions.  Severities and codes are numbers that may come from outside, so each type keeps the
numbers to which no meaning is given.
-/

namespace ZigGolf

/-- How bad a diagnostic is. -/
inductive Severity where
  | error
  | fatal
  /-- A level without a meaning of its own. -/
  | other (level : UInt8)
  deriving DecidableEq

namespace Severity

/-- The severity with a given level. -/
def ofLevel (level : UInt8) : Severity :=
  if level = 0 then error else if level = 1 then fatal else other level

/-- The level of a severity. -/
def level : Severity → UInt8
  | error => 0
  | fatal => 1
  | other level => level

/-- How a severity is called in a report.  What is not fatal is reported as an error. -/
def name : Severity → Bytes
  | fatal => ascii "fatal"
  | _ => ascii "error"

@[simp] theorem level_ofLevel (level : UInt8) : (ofLevel level).level = level := by
  unfold ofLevel
  split
  · simp_all [Severity.level]
  · split <;> simp_all [Severity.level]

end Severity

/-- What a diagnostic is about. -/
inductive Code where
  /-- The source is not UTF-8; the message names the offset and the byte. -/
  | invalidUtf8
  /-- A piece of the source is no token; the message names it. -/
  | invalidToken
  /-- Nothing was written because the source has an invalid token. -/
  | invalidSource
  /-- The input is larger than allowed; the message names the limit. -/
  | sourceTooLarge
  /-- The input cannot be read; the message names it and the reason. -/
  | cannotOpenFile
  /-- A number without a meaning of its own. -/
  | other (number : UInt16)
  deriving DecidableEq

namespace Code

/-- The code with a given number. -/
def ofNumber (number : UInt16) : Code :=
  if number = 0 then invalidUtf8
  else if number = 1 then invalidToken
  else if number = 2 then invalidSource
  else if number = 3 then sourceTooLarge
  else if number = 4 then cannotOpenFile
  else other number

/-- How a code is called. -/
def name : Code → Bytes
  | invalidUtf8 => ascii "InvalidUtf8"
  | invalidToken => ascii "InvalidToken"
  | invalidSource => ascii "InvalidSource"
  | sourceTooLarge => ascii "SourceTooLarge"
  | cannotOpenFile => ascii "CannotOpenFile"
  | other _ => ascii "Unknown"

end Code

/-- A report about a place in a source. -/
structure Diagnostic where
  severity : Severity
  code : Code
  span : Span
  /-- The texts the message mentions, in order. -/
  args : List Bytes := []
  deriving DecidableEq

namespace Diagnostic

/-- A byte as two upper-case hexadecimal digits. -/
def hexPair (b : UInt8) : Bytes :=
  let digit (n : UInt8) : UInt8 := if n < 10 then 0x30 + n else 0x41 + (n - 10)
  [digit (b >>> 4), digit (b &&& 0x0F)]

/-- The report for the byte at which a source stops being UTF-8. -/
def malformedSource (span : Span) (b : UInt8) : Diagnostic where
  severity := .fatal
  code := .invalidUtf8
  span := span
  args := [decimal span.lo.toNat, hexPair b]

/-- The report for a piece of text that is no token. -/
def invalidToken (t : Token) : Diagnostic where
  severity := .error
  code := .invalidToken
  span := t.span
  args := [t.lexeme]

/-- The report that an invalid token keeps a source from being minified. -/
def invalidSource (span : Span) : Diagnostic where
  severity := .fatal
  code := .invalidSource
  span := span

end Diagnostic

/-! ### Logs -/

/-- The diagnostics recorded so far, oldest first. -/
abbrev Log := List Diagnostic

namespace Log

/-- How many errors are recorded, fatal ones not counted. -/
def errorCount (log : Log) : Nat := log.countP fun d => d.severity = .error

/-- How many fatal diagnostics are recorded. -/
def fatalCount (log : Log) : Nat := log.countP fun d => d.severity = .fatal

/-- Whether an error or a fatal diagnostic is recorded. -/
def hasError (log : Log) : Bool := log.errorCount != 0 || log.fatalCount != 0

/-- Whether a fatal diagnostic is recorded. -/
def hasFatal (log : Log) : Bool := log.fatalCount != 0

/-- Whether a diagnostic with a given code is recorded. -/
def hasCode (log : Log) (code : Code) : Bool := log.any fun d => d.code = code

end Log

end ZigGolf
