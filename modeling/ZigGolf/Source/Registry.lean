import ZigGolf.Source.Line
import ZigGolf.Source.Width
import ZigGolf.Token.Basic

/-!
# Source files and places in them

A registry numbers the source files that diagnostics refer to.  A byte offset is shown to a reader
as a line and a display column, and a span as a snippet: the line in which the span starts, some
lines around it, and where to draw the mark under the span.

All of this is computed in 32-bit words.  Offsets past the end of a file mean its end, and a span
that runs over several lines is marked in its first line only.
-/

namespace ZigGolf

/-- A source file with the table of its lines. -/
structure SourceFile where
  name : Bytes
  content : Array UInt8
  /-- The offsets at which the lines start. -/
  starts : Array UInt32
  /-- The table belongs to the content. -/
  starts_eq : starts = lineStarts content

/-- A line and a display column, both counted from one. -/
structure Position where
  line : UInt32 := 1
  column : UInt32 := 1
  deriving DecidableEq

/-- Some lines of a source file around a marked place. -/
structure Snippet where
  /-- The number of the first line shown, counted from one. -/
  firstLine : UInt32 := 1
  /-- The lines shown, without line feeds. -/
  lines : List Bytes := []
  /-- Which of the lines is marked, counted from zero. -/
  markLine : UInt32 := 0
  /-- The columns before the mark. -/
  markBefore : UInt32 := 0
  /-- The columns of the mark. -/
  markLength : UInt32 := 1
  deriving DecidableEq

namespace SourceFile

/-- A file with a given name and content. -/
def ofBytes (name content : Bytes) : SourceFile :=
  ⟨name, content.toArray, lineStarts content.toArray, rfl⟩

/-- The size of a file as a word. -/
def size (f : SourceFile) : UInt32 := f.content.size.toUInt32

/-- The number of lines of a file as a word. -/
def lineCount (f : SourceFile) : UInt32 := f.starts.size.toUInt32

/-- The line that holds an offset, counted from zero. -/
def lineAt (f : SourceFile) (offset : UInt32) : UInt32 :=
  (lastAtMost f.starts offset 0 f.starts.size).toUInt32

/-- The offset at which a line starts. -/
def lineStart (f : SourceFile) (line : UInt32) : UInt32 := f.starts.getD line.toNat 0

/-- The offset at which a line ends: that of its line feed, or the end of the file. -/
def lineEnd (f : SourceFile) (line : UInt32) : UInt32 :=
  match f.starts[line.toNat + 1]? with
  | some next => next - 1
  | none => f.size

/-- The bytes from one offset to another. -/
def slice (f : SourceFile) (lo hi : UInt32) : Bytes := (f.content.extract lo.toNat hi.toNat).toList

/-- The bytes of a line, without its line feed. -/
def line (f : SourceFile) (line : UInt32) : Bytes := f.slice (f.lineStart line) (f.lineEnd line)

/-- The line and column of an offset. -/
def position (f : SourceFile) (offset : UInt32) : Position :=
  let offset := min offset f.size
  let line := f.lineAt offset
  let before := f.slice (f.lineStart line) offset
  ⟨line + 1, displayWidth before.length before + 1⟩

/-- The lines around the start of a span, with `context` lines on each side as far as there are
any. -/
def snippet (f : SourceFile) (lo hi context : UInt32) : Snippet :=
  let hi := min (max hi lo) f.size
  let lo := min lo f.size
  let caret := f.lineAt lo
  let first := if context < caret then caret - context else 0
  let last := min (caret + context) (f.lineCount - 1)
  let markLine := f.line caret
  -- the mark covers what the span has of its first line, and at least one column
  let start := f.lineStart caret
  let before := (lo - start).toNat
  let marked := (min hi (f.lineEnd caret) - start).toNat - before
  let length := displayWidth marked (markLine.drop before)
  { firstLine := first + 1
    lines := (List.range' first.toNat (last.toNat + 1 - first.toNat)).map fun i => f.line i.toUInt32
    markLine := caret - first
    markBefore := displayWidth before markLine
    markLength := if length = 0 then 1 else length }

end SourceFile

/-! ### The registry -/

/-- The source files known so far.  A file is numbered by its place. -/
structure Registry where
  files : Array SourceFile := #[]

namespace Registry

/-- Adds a file, and gives it the next number. -/
def add (r : Registry) (name content : Bytes) : UInt32 × Registry :=
  (r.files.size.toUInt32, ⟨r.files.push (.ofBytes name content)⟩)

/-- The file with a given number. -/
def file? (r : Registry) (id : UInt32) : Option SourceFile := r.files[id.toNat]?

/-- The name of a file. -/
def name (r : Registry) (id : UInt32) : Bytes :=
  match r.file? id with
  | some f => f.name
  | none => ascii "<unknown>"

/-- The content of a file; that of an unknown file is empty. -/
def content (r : Registry) (id : UInt32) : Bytes :=
  match r.file? id with
  | some f => f.content.toList
  | none => []

/-- The line and column of an offset; in an unknown file, the first. -/
def position (r : Registry) (id offset : UInt32) : Position :=
  match r.file? id with
  | some f => f.position offset
  | none => {}

/-- The snippet for a span; for an unknown file it has no lines. -/
def snippet (r : Registry) (span : Span) (context : UInt32) : Snippet :=
  match r.file? span.file with
  | some f => f.snippet span.lo span.hi context
  | none => {}

end Registry

end ZigGolf
