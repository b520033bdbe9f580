import ZigGolf.Bytes.Basic

/-!
# Settings

What the arguments of the command line ask for.  They are read from left to right.  An option that
takes a value takes the next argument, whatever it looks like; of an option given twice the last
one counts.  Reading stops at the first request for help or the version and at the first mistake,
and what was read before a mistake is kept.
-/

namespace ZigGolf

/-- What is to be done. -/
inductive Action where
  | showUsage
  | showVersion
  | minify
  | listTokens
  deriving DecidableEq

/-- What the arguments ask for. -/
structure Settings where
  action : Action := .minify
  /-- The file to read; the standard input if empty. -/
  input : Bytes := []
  /-- The file to write; the standard output if empty. -/
  output : Bytes := []
  /-- Whether pointers are known to have 64 bits. -/
  ptr64 : Bool := false
  /-- The number of lines shown on each side of a marked line. -/
  context : UInt32 := 2
  /-- The largest size of an input. -/
  maxSize : UInt64 := 1048576
  deriving DecidableEq

/-- A mistake in the arguments. -/
inductive UsageError where
  | outputMissing
  | contextMissing
  | contextNotANumber
  | maxSizeNotANumber
  | fileMissing
  | unknownOption (option : Bytes)
  | secondInput
  deriving DecidableEq

/-- The wording of a mistake. -/
def UsageError.message : UsageError → Bytes
  | outputMissing => ascii "-o requires a path"
  | contextMissing => ascii "--context requires a number"
  | contextNotANumber => ascii "--context requires a non-negative integer"
  | maxSizeNotANumber => ascii "-fmax-source-size requires a non-negative integer"
  | fileMissing => ascii "--file requires a path"
  | unknownOption option => ascii "unknown option: " ++ option
  | secondInput => ascii "multiple input files are not supported"

/-- The number that decimal digits write. -/
def decimalValue (digits : Bytes) : Nat :=
  digits.foldl (fun n b => 10 * n + (b.toNat - 0x30)) 0

/-- The number that a text writes in decimal digits, if it is at most `max`. -/
def number? (max : Nat) (s : Bytes) : Option Nat :=
  if s ≠ [] ∧ s.all isDigit ∧ decimalValue s ≤ max then some (decimalValue s) else none

/-- The text before the value of the option that limits the size of the input. -/
def maxSizeKey : Bytes := ascii "-fmax-source-size="

/-! ### Reading arguments -/

/-- The options that take the next argument as their value. -/
inductive ValueOption where
  | output
  | context
  | file
  deriving DecidableEq

namespace ValueOption

/-- The option that an argument is, if that option takes a value. -/
def ofArgument? (arg : Bytes) : Option ValueOption :=
  if arg = ascii "-o" then some output
  else if arg = ascii "--context" then some context
  else if arg = ascii "--file" then some file
  else none

/-- The mistake of leaving the value out. -/
def missing : ValueOption → UsageError
  | output => .outputMissing
  | context => .contextMissing
  | file => .fileMissing

end ValueOption

/-- What an argument asks for that ends the reading. -/
def closingAction? (arg : Bytes) : Option Action :=
  if arg = ascii "--help" ∨ arg = ascii "-h" then some .showUsage
  else if arg = ascii "--version" then some .showVersion
  else none

/-- Settings as far as they have been read. -/
structure SettingsReader where
  settings : Settings := {}
  /-- Whether an input has been given. -/
  inputGiven : Bool := false

namespace SettingsReader

/-- Changes a setting. -/
def change (r : SettingsReader) (f : Settings → Settings) : SettingsReader :=
  { r with settings := f r.settings }

/-- Takes an input.  A dash stands for the standard input. -/
def addInput (r : SettingsReader) (path : Bytes) : Except UsageError SettingsReader :=
  if r.inputGiven then .error .secondInput
  else
    let r := { r with inputGiven := true }
    .ok (if path = ascii "-" then r else r.change fun s => { s with input := path })

/-- Takes an option together with its value. -/
def addValue (r : SettingsReader) (option : ValueOption) (value : Bytes) :
    Except UsageError SettingsReader :=
  match option with
  | .output => .ok (r.change fun s => { s with output := value })
  | .context =>
    match number? 0xFFFFFFFF value with
    | none => .error .contextNotANumber
    | some n => .ok (r.change fun s => { s with context := n.toUInt32 })
  | .file => r.addInput value

/-- Takes an argument that stands by itself. -/
def addArgument (r : SettingsReader) (arg : Bytes) : Except UsageError SettingsReader :=
  if arg = ascii "--ptr64" then .ok (r.change fun s => { s with ptr64 := true })
  else if arg = ascii "--dump-tokens" then .ok (r.change fun s => { s with action := .listTokens })
  else if maxSizeKey.isPrefixOf arg then
    match number? 0xFFFFFFFFFFFFFFFF (arg.drop maxSizeKey.length) with
    | none => .error .maxSizeNotANumber
    | some n => .ok (r.change fun s => { s with maxSize := (max n 1).toUInt64 })
  else if arg.head? = some (byte '-') ∧ 1 < arg.length then .error (.unknownOption arg)
  else r.addInput arg

/-- Reads arguments: the settings, and the mistake at which the reading stopped. -/
def read (r : SettingsReader) : List Bytes → Settings × Option UsageError
  | [] => (r.settings, none)
  | arg :: rest =>
    match closingAction? arg with
    | some action => ({ r.settings with action }, none)
    | none =>
      match ValueOption.ofArgument? arg with
      | none =>
        match r.addArgument arg with
        | .error mistake => (r.settings, some mistake)
        | .ok r => r.read rest
      | some option =>
        match rest with
        | [] => (r.settings, some option.missing)
        | value :: rest =>
          match r.addValue option value with
          | .error mistake => (r.settings, some mistake)
          | .ok r => r.read rest

end SettingsReader

/-- An argument as the program sees it: a zero byte ends it. -/
def argumentText (text : Bytes) : Bytes := text.takeWhile (· != 0)

/-- Reads the arguments that follow the name of the program. -/
def Settings.read (args : List Bytes) : Settings × Option UsageError :=
  SettingsReader.read {} (args.map argumentText)

end ZigGolf
