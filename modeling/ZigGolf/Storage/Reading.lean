import ZigGolf.Diagnostic.Basic
import ZigGolf.Storage.Folder
import ZigGolf.Storage.LineEnd

/-!
# Reading source text

Source text comes from a file or from a stream, up to a limit on its size in bytes.  The size of a
file is known before it is read; a stream is read block by block and given up as soon as the limit
is passed.  Line ends are normalised after the size has been checked.
-/

namespace ZigGolf

/-- Why source text cannot be read. -/
inductive ReadError where
  | tooLarge (limit : UInt64)
  | cannotOpen (cause : OpenError)
  /-- The stream failed before its end. -/
  | interrupted
  deriving DecidableEq

namespace ReadError

/-- The code under which an error is reported. -/
def code : ReadError → Code
  | tooLarge _ => .sourceTooLarge
  | cannotOpen _ | interrupted => .cannotOpenFile

/-- The text of an error: the limit that was passed, or what went wrong. -/
def text : ReadError → Bytes
  | tooLarge limit => decimal limit.toNat
  | cannotOpen cause => ascii "cannot open file: " ++ cause.reason
  | interrupted => ascii "read error"

end ReadError

/-- The content of a file as source text. -/
def readContent (limit : UInt64) (content : Bytes) : Except ReadError Bytes :=
  if limit.toNat < content.length then .error (.tooLarge limit) else .ok (normalizeLineEnds content)

/-- Reads a file of a folder as source text. -/
def Folder.readSource (folder : Folder) (limit : UInt64) (path : Bytes) : Except ReadError Bytes :=
  match folder.read path with
  | .ok content => readContent limit content
  | .error cause => .error (.cannotOpen cause)

/-! ### Streams -/

/-- A stream to read from. -/
structure InputStream where
  /-- The bytes the stream holds. -/
  data : Bytes
  /-- Whether the stream fails instead of coming to its end.  The block in which that happens is
  lost. -/
  broken : Bool := false

/-- The number of bytes read at a time. -/
abbrev blockSize : Nat := 4096

/-- Reads blocks until one is not full: the blocks, first one first, or the error that ends the
reading.  `size` bytes have been read so far, in `blocks`, last one first. -/
def readBlocks (limit : UInt64) (broken : Bool) (size : Nat) (blocks : List Bytes) (data : Bytes) :
    Except ReadError (List Bytes) :=
  let arrived := data.take blockSize
  if _h : arrived.length < blockSize then
    if broken then .error .interrupted
    else if limit.toNat < size + arrived.length then .error (.tooLarge limit)
    else .ok (arrived :: blocks).reverse
  else if limit.toNat < size + blockSize then .error (.tooLarge limit)
  else readBlocks limit broken (size + blockSize) (arrived :: blocks) (data.drop blockSize)
termination_by data.length
decreasing_by
  -- a full block arrived, so the stream held at least one
  have hfull : blockSize ≤ min blockSize data.length := by simpa +zetaDelta using _h
  simp only [List.length_drop]
  have hpos : 0 < blockSize := by decide
  omega

/-- Reads a stream as source text. -/
def readStream (limit : UInt64) (stream : InputStream) : Except ReadError Bytes :=
  match readBlocks limit stream.broken 0 [] stream.data with
  | .ok blocks => .ok (normalizeLineEnds blocks.flatten)
  | .error e => .error e

end ZigGolf
