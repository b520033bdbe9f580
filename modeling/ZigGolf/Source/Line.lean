import ZigGolf.Bytes.Basic

/-!
# Lines

The table of the offsets at which the lines of a text start, and the search in it for the line that
holds an offset.  A line ends at a line feed, which belongs to no line; the last line ends with the
text and may be empty.
-/

namespace ZigGolf

/-- The offsets at which lines start: the start of the text, and after every line feed. -/
def lineStarts (content : Array UInt8) : Array UInt32 :=
  let step (state : UInt32 × Array UInt32) (b : UInt8) : UInt32 × Array UInt32 :=
    let next := state.1 + 1
    (next, if b = lineFeed then state.2.push next else state.2)
  (content.foldl step (0, #[0])).2

/-- The last index from `lo` on and below `hi` whose entry in a table is at most `offset`, by
halving the range.  The table has to be in ascending order and its entry at `lo` at most
`offset`. -/
def lastAtMost (table : Array UInt32) (offset : UInt32) (lo hi : Nat) : Nat :=
  if hi ≤ lo + 1 then lo
  else
    let middle := lo + (hi - lo) / 2
    if table.getD middle 0 ≤ offset then lastAtMost table offset middle hi
    else lastAtMost table offset lo middle
termination_by hi - lo
decreasing_by all_goals omega

end ZigGolf
