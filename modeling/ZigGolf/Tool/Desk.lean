import ZigGolf.Tool.Run

/-!
# A model of the world around a run

A desk is a folder, a standard input, and what has been written to the two outputs.  Running the
tool on a desk gives the desk as it is afterwards.
-/

namespace ZigGolf

/-- The world around a run. -/
structure Desk where
  folder : Folder := {}
  input : InputStream := ⟨[], false⟩
  /-- Whether every write to the standard output fails. -/
  outputBroken : Bool := false
  /-- What has been written to the standard output. -/
  output : Bytes := []
  /-- What has been written to the standard error output. -/
  errorOutput : Bytes := []

namespace Desk

/-- The operations of a system on a desk. -/
def system : System (StateM Desk) where
  input := do return (← get).input
  readFile path := do return (← get).folder.read path
  writeFile path text := do
    let desk ← get
    match desk.folder.write path text with
    | .ok folder =>
      set { desk with folder }
      return true
    | .error _ => return false
  print text := do
    let desk ← get
    if desk.outputBroken then
      -- writing nothing succeeds even then
      return text.isEmpty
    else
      set { desk with output := desk.output ++ text }
      return true
  printError text := modify fun desk => { desk with errorOutput := desk.errorOutput ++ text }

/-- Runs the whole program: the exit code, and the desk afterwards. -/
def invoke (args : List Bytes) (desk : Desk) : UInt32 × Desk := (Tool.invoke system args).run desk

/-- Runs the program as if its arguments had no mistake and asked for neither help nor version. -/
def run (args : List Bytes) (desk : Desk) : UInt32 × Desk :=
  (Tool.run system (Settings.read args).1).run desk

end Desk

end ZigGolf
