import ZigGolf.Diagnostic.Message
import ZigGolf.Source.Registry

/-!
# Reports

How a diagnostic is shown: a line with its message, a line with the place, and if wanted the source
around the place with a mark under it.  Line numbers are right-aligned in a column of their own,
and a bar separates them from the source.
-/

namespace ZigGolf

/-- A number of spaces. -/
def spaces (n : Nat) : Bytes := List.replicate n space

namespace Diagnostic

/-- The report without source lines. -/
def report (d : Diagnostic) (sources : Registry) : Bytes :=
  let place := sources.position d.span.file d.span.lo
  d.severity.name ++ ascii "[" ++ d.code.name ++ ascii "]: " ++ d.message ++ ascii "\n --> "
    ++ sources.name d.span.file ++ ascii ":" ++ decimal place.line.toNat
    ++ ascii ":" ++ decimal place.column.toNat ++ [lineFeed]

end Diagnostic

namespace Snippet

/-- The width of the column of line numbers. -/
def numberWidth (s : Snippet) : Nat :=
  (decimal (s.firstLine + s.lines.length.toUInt32 - 1).toNat).length

/-- The row of one line, with line numbers in a column of a given width. -/
def lineRow (s : Snippet) (width i : Nat) (line : Bytes) : Bytes :=
  let number := decimal (s.firstLine + i.toUInt32).toNat
  spaces 2 ++ spaces (width - number.length) ++ number ++ ascii " | " ++ line ++ [lineFeed]

/-- The row with the mark. -/
def markRow (s : Snippet) (width : Nat) : Bytes :=
  spaces 2 ++ spaces width ++ ascii " | " ++ spaces s.markBefore.toNat
    ++ List.replicate s.markLength.toNat (byte '^') ++ [lineFeed]

/-- All rows: one empty row, then the lines, with the mark below the marked one. -/
def rows (s : Snippet) : Bytes :=
  let width := s.numberWidth
  let row (i : Nat) (line : Bytes) : Bytes :=
    s.lineRow width i line ++ if i = s.markLine.toNat then s.markRow width else []
  spaces (width + 3) ++ ascii "|\n" ++ (s.lines.mapIdx row).flatten

end Snippet

namespace Diagnostic

/-- The report with `context` source lines on each side of the marked one. -/
def reportInContext (d : Diagnostic) (sources : Registry) (context : UInt32) : Bytes :=
  let snippet := sources.snippet d.span context
  if snippet.lines.isEmpty then d.report sources else d.report sources ++ snippet.rows

end Diagnostic

end ZigGolf
