import ZigGolf.Bytes.Utf8

/-!
# Display width

How many columns of a terminal a text takes, as far as diagnostics need it: control characters and
combining marks take none, a tab takes four, wide East Asian forms and pictographs take two, and
every other code point takes one.
-/

namespace ZigGolf

/-- The blocks of combining marks, as inclusive ranges of code points. -/
def combiningRanges : List (UInt32 × UInt32) :=
  [(0x0300, 0x036F), (0x1AB0, 0x1AFF), (0x1DC0, 0x1DFF), (0x20D0, 0x20FF), (0xFE20, 0xFE2F)]

/-- The blocks of wide forms, as inclusive ranges of code points. -/
def wideRanges : List (UInt32 × UInt32) :=
  [(0x1100, 0x115F), (0x2E80, 0xA4CF), (0xAC00, 0xD7A3), (0xF900, 0xFAFF), (0xFE30, 0xFE6F),
    (0xFF00, 0xFF60), (0xFFE0, 0xFFE6), (0x1F300, 0x1FAFF)]

/-- Whether a code point lies in one of several ranges. -/
def inRanges (ranges : List (UInt32 × UInt32)) (cp : UInt32) : Bool :=
  ranges.any fun r => r.1 ≤ cp && cp ≤ r.2

/-- The number of columns a code point takes. -/
def codePointWidth (cp : UInt32) : UInt32 :=
  if cp = 0x09 then 4
  else if cp < 0x20 || 0x7F ≤ cp && cp < 0xA0 then 0
  else if inRanges combiningRanges cp then 0
  else if inRanges wideRanges cp then 2
  else 1

/-- Reads the width of one code point that starts in the next `limit` bytes of a text. -/
def widthStep : Nat × Bytes → Option (UInt32 × (Nat × Bytes))
  | (0, _) => none
  | (_, []) => none
  | (limit + 1, b :: rest) =>
    let decoded := Utf8.decode b rest
    some (codePointWidth decoded.1, (limit - decoded.2, rest.drop decoded.2))

/-- Every code point takes at least its first byte. -/
theorem widthStep_shrinks {s t : Nat × Bytes} {w : UInt32} (h : widthStep s = some (w, t)) :
    t.2.length < s.2.length := by
  unfold widthStep at h
  split at h
  · simp at h
  · simp at h
  · obtain ⟨_, rfl⟩ := Prod.mk.inj (Option.some.inj h)
    exact Nat.lt_succ_of_le (List.drop_sublist _ _).length_le

/-- The widths of the code points that start in the first `limit` bytes of a text. -/
def codePointWidths (limit : Nat) (s : Bytes) : List UInt32 :=
  (unroll (fun (p : Nat × Bytes) => p.2.length) widthStep widthStep_shrinks (limit, s)).1

/-- The number of columns that the code points take that start in the first `limit` bytes of a
text.  A code point that starts there counts in full, wherever it ends. -/
def displayWidth (limit : Nat) (s : Bytes) : UInt32 :=
  (codePointWidths limit s).foldl (· + ·) 0

end ZigGolf
