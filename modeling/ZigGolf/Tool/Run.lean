import ZigGolf.Diagnostic.Report
import ZigGolf.Minification.Minifier
import ZigGolf.Storage.Reading
import ZigGolf.Tool.Settings
import ZigGolf.Tool.Usage

/-!
# Runs of the tool

What the tool does from its arguments to its exit code.  It is written over an arbitrary
`System`, the handful of operations by which a program touches the world, so that the same text is
run on a real system and reasoned about on the model `Desk`.
-/

namespace ZigGolf

universe u

/-- What a program can do to the world around it. -/
structure System (m : Type → Type u) where
  /-- The standard input. -/
  input : m InputStream
  /-- The content of the file at a path, or why it cannot be opened. -/
  readFile : Bytes → m (Except OpenError Bytes)
  /-- Makes a text the content of the file at a path; tells whether that succeeded. -/
  writeFile : Bytes → Bytes → m Bool
  /-- Writes to the standard output; tells whether that succeeded. -/
  print : Bytes → m Bool
  /-- Writes to the standard error output. -/
  printError : Bytes → m Unit

namespace Tool

variable {m : Type → Type u} [Monad m]

/-- The exit code of a run without errors. -/
abbrev success : UInt32 := 0

/-- The exit code of a run with errors. -/
abbrev failure : UInt32 := 1

/-- The name under which an input is reported. -/
def inputName (settings : Settings) : Bytes :=
  if settings.input = [] then ascii "<stdin>" else settings.input

/-- Reads the input that the settings name. -/
def readInput (system : System m) (settings : Settings) : m (Except ReadError Bytes) := do
  if settings.input = [] then
    return readStream settings.maxSize (← system.input)
  else
    match ← system.readFile settings.input with
    | .ok content => return readContent settings.maxSize content
    | .error cause => return .error (.cannotOpen cause)

/-- The diagnostic for an input that cannot be read.  The limit is mentioned as a signed number. -/
def readFailure (settings : Settings) (e : ReadError) : Diagnostic where
  severity := .fatal
  code := e.code
  span := ⟨0, 0, 0⟩
  args :=
    match e with
    | .tooLarge _ => [decimalInt settings.maxSize.toInt64.toInt]
    | e => [inputName settings, e.text]

/-- The report of an input that cannot be read.  There is no source to show. -/
def readFailureReport (settings : Settings) (e : ReadError) : Bytes :=
  let (_, sources) := Registry.add {} (inputName settings) []
  (readFailure settings e).report sources ++ [lineFeed]

/-- The reports of all diagnostics of a log, each followed by an empty line. -/
def logReport (log : Log) (sources : Registry) (context : UInt32) : Bytes :=
  (log.map fun d => d.reportInContext sources context ++ [lineFeed]).flatten

/-- The exit code for a log. -/
def exitCode (log : Log) : UInt32 := if log.hasError then failure else success

/-- Lists the tokens of a source. -/
def listTokens (system : System m) (settings : Settings) (sources : Registry) (file : UInt32)
    (source : Bytes) : m UInt32 := do
  let (tokens, lexer) := (Lexer.ofSource file source (some [])).readAll
  let log := lexer.log.getD []
  let _ ← system.print (Token.listing tokens)
  system.printError (logReport log sources settings.context)
  return exitCode log

/-- Writes a minified text to where the settings say; tells what to report if that fails. -/
def deliver (system : System m) (settings : Settings) (text : Bytes) : m (Option Bytes) := do
  if settings.output = [] then
    if ← system.print text then return none
    else return some (ascii "error: failed to write output to stdout\n")
  else if ← system.writeFile settings.output text then return none
  else return some (ascii "error: cannot write output file '" ++ settings.output ++ ascii "'\n")

/-- Minifies a source.  Nothing is written if it has an invalid token. -/
def writeMinified (system : System m) (settings : Settings) (sources : Registry) (file : UInt32)
    (source : Bytes) : m UInt32 := do
  match minify settings.ptr64 file source with
  | (none, log) =>
    system.printError (logReport log sources settings.context)
    return failure
  | (some text, log) =>
    match ← deliver system settings text with
    | some problem =>
      system.printError problem
      return failure
    | none =>
      system.printError (logReport log sources settings.context)
      return exitCode log

/-- Reads the input and does with it what the settings ask for. -/
def run (system : System m) (settings : Settings) : m UInt32 := do
  match ← readInput system settings with
  | .error e =>
    system.printError (readFailureReport settings e)
    return failure
  | .ok source =>
    let (file, sources) := Registry.add {} (inputName settings) source
    match settings.action with
    | .listTokens => listTokens system settings sources file source
    | .minify => writeMinified system settings sources file source
    | .showUsage | .showVersion => return success

/-- The whole program: reads the arguments, and runs or says how it is called. -/
def invoke (system : System m) (args : List Bytes) : m UInt32 := do
  match Settings.read args with
  | (_, some mistake) =>
    system.printError (ascii "error: " ++ mistake.message ++ [lineFeed] ++ usageText)
    return failure
  | (settings, none) =>
    match settings.action with
    | .showVersion =>
      let _ ← system.print (versionText ++ [lineFeed])
      return success
    | .showUsage =>
      let _ ← system.print (versionText ++ [lineFeed] ++ usageText)
      return success
    | .minify | .listTokens => run system settings

end Tool

end ZigGolf
