import ZigGolf.Bytes.Basic
import ZigGolf.Bytes.Iteration

/-!
# Gaps between tokens

What may stand between two tokens without being one: blanks, and comments that document nothing.
A comment starts with two slashes and runs up to the end of its line.  With exactly three slashes,
or with an exclamation mark after the two, it is a doc comment and therefore a token.
-/

namespace ZigGolf

/-- The texts that start a comment of any sort. -/
def startsComment : Bytes → Bool
  | a :: b :: _ => a == slash && b == slash
  | _ => false

/-- The texts that start a doc comment: three slashes that are not four, or two and an exclamation
mark. -/
def startsDocComment : Bytes → Bool
  | a :: b :: c :: rest =>
    a == slash && b == slash && (c == byte '!' || c == slash && rest.head? != some slash)
  | _ => false

/-- The part of a text up to the end of its first line. -/
def firstLine (s : Bytes) : Bytes := s.takeWhile (· != lineFeed)

/-- The part of a text from the end of its first line on. -/
def afterFirstLine (s : Bytes) : Bytes := s.dropWhile (· != lineFeed)

/-- A text is its first line and what follows. -/
@[simp] theorem firstLine_append_afterFirstLine (s : Bytes) :
    firstLine s ++ afterFirstLine s = s :=
  List.takeWhile_append_dropWhile

/-- Splits one blank or one plain comment off a text. -/
def gapItem? : Bytes → Option (Bytes × Bytes)
  | [] => none
  | b :: rest =>
    if isBlank b then some ([b], rest)
    else if startsComment (b :: rest) && !startsDocComment (b :: rest) then
      some (firstLine (b :: rest), afterFirstLine (b :: rest))
    else none

/-- A gap item and what follows it make up the text. -/
theorem gapItem?_append {s t rest : Bytes} (h : gapItem? s = some (t, rest)) : t ++ rest = s := by
  unfold gapItem? at h
  split at h
  · simp at h
  · repeat' split at h
    all_goals simp at h
    all_goals obtain ⟨rfl, rfl⟩ := h; simp

/-- A gap item has at least one byte. -/
theorem gapItem?_ne_nil {s t rest : Bytes} (h : gapItem? s = some (t, rest)) : t ≠ [] := by
  unfold gapItem? at h
  split at h
  · simp at h
  · next b r =>
    split at h
    · simp at h
      simp [← h.1]
    · split at h
      · next hb hc =>
        -- a comment starts with a slash, which ends no line
        have hs : (b != lineFeed) = true := by
          cases r with
          | nil => simp [startsComment] at hc
          | cons c r =>
            simp [startsComment] at hc
            rw [hc.1.1]; decide
        simp at h
        rw [← h.1, firstLine, List.takeWhile_cons, hs]
        simp
      · simp at h

/-- Behind a blank or a comment there is less text left. -/
theorem gapItem?_shrinks {s t rest : Bytes} (h : gapItem? s = some (t, rest)) :
    rest.length < s.length := by
  have hne := List.length_pos_iff.2 (gapItem?_ne_nil h)
  rw [← gapItem?_append h, List.length_append]
  omega

/-- Splits the longest gap off a text: its items, and the rest, which starts with a token or is
empty. -/
def splitGap (s : Bytes) : List Bytes × Bytes :=
  unroll List.length gapItem? gapItem?_shrinks s

/-- A gap and what follows it make up the text. -/
theorem splitGap_append (s : Bytes) : (splitGap s).1.flatten ++ (splitGap s).2 = s :=
  unroll_flatten_append gapItem? gapItem?_shrinks gapItem?_append s

end ZigGolf
