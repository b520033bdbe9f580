import ZigGolf.Tool.Run

/-!
# The command line

Runs the tool on the operating system.  This is the only place where the library meets it, and all
that happens here is passing bytes back and forth.
-/

namespace ZigGolf

/-- A path as the operating system takes it; one that is not UTF-8 becomes the empty path. -/
def osPath (path : Bytes) : String := (String.fromUTF8? ⟨path.toArray⟩).getD ""

/-- The number of a failure, which may be reported with a minus sign. -/
def failureNumber (code : UInt32) : UInt32 := if code < 0x80000000 then code else 0 - code

/-- The reason that the operating system gives for a failure. -/
def osReason : IO.Error → OpenError
  | .noFileOrDirectory .. => .notFound
  | .inappropriateType _ code _ =>
    if failureNumber code = 20 then .notADirectory else .isADirectory
  | .invalidArgument _ code details =>
    if failureNumber code = 36 then .nameTooLong else .other details.toUTF8.toList
  | .permissionDenied .. => .other (ascii "Permission denied")
  | e => .other e.toString.toUTF8.toList

/-- Reads a stream to its end: what was read, and whether it failed before. -/
partial def readToEnd (stream : IO.FS.Stream) (content : ByteArray) : IO InputStream := do
  let block ← try some <$> stream.read blockSize.toUSize catch _ => pure none
  match block with
  | none => return ⟨content.toList, true⟩
  | some block =>
    if block.isEmpty then return ⟨content.toList, false⟩
    else readToEnd stream (content ++ block)

/-- Writes bytes to a stream; tells whether that succeeded. -/
def writeTo (stream : IO.FS.Stream) (text : Bytes) : IO Bool :=
  try
    stream.write ⟨text.toArray⟩
    stream.flush
    return true
  catch _ => return false

/-- The operations of the operating system. -/
def osSystem : System IO where
  input := do readToEnd (← IO.getStdin) .empty
  readFile path :=
    try
      return .ok (← IO.FS.readBinFile (osPath path)).toList
    catch e => return .error (osReason e)
  writeFile path text :=
    try
      IO.FS.writeBinFile (osPath path) ⟨text.toArray⟩
      return true
    catch _ => return false
  print text := do writeTo (← IO.getStdout) text
  printError text := do
    let _ ← writeTo (← IO.getStderr) text

end ZigGolf

/-- The program. -/
def main (args : List String) : IO UInt32 :=
  ZigGolf.Tool.invoke ZigGolf.osSystem (args.map fun arg => arg.toUTF8.toList)
