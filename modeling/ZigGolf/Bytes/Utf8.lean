import ZigGolf.Bytes.Basic
import ZigGolf.Bytes.Iteration

/-!
# UTF-8

Three readings of a byte string as UTF-8, each as strict as its use needs:

* `Utf8.sequence?` accepts one well-formed sequence (shortest form, no surrogate, at most
  U+10FFFF), and `Utf8.malformed?` finds the first place of a text where none starts;
* `Utf8.sequenceLength` tells from a lead byte how many bytes its sequence takes, and is used on
  text already known to be well formed;
* `Utf8.decode?` reads a code point by its high bits without asking whether it is in its shortest
  form; for display, `Utf8.decode` replaces what cannot be read by U+FFFD.
-/

namespace ZigGolf.Utf8

/-- The bytes `10xxxxxx`, which continue a sequence and never start one. -/
def isContinuation (b : UInt8) : Bool := b &&& 0xC0 == 0x80

/-! ### Well-formed text -/

/-- Splits one well-formed sequence off a text.  The second byte of a sequence is bounded after the
leads `E0` and `F0`, where a shorter form exists, after `ED`, where surrogates lie, and after `F4`,
where the code space ends. -/
def sequence? : Bytes → Option (Bytes × Bytes)
  | [] => none
  | a :: rest =>
    if a < 0x80 then some ([a], rest)
    else if 0xC2 ≤ a && a ≤ 0xDF then
      match rest with
      | b :: rest => if isContinuation b then some ([a, b], rest) else none
      | _ => none
    else if 0xE0 ≤ a && a ≤ 0xEF then
      match rest with
      | b :: c :: rest =>
        if isContinuation b && isContinuation c && !(a == 0xE0 && b < 0xA0)
            && !(a == 0xED && 0xA0 ≤ b) then
          some ([a, b, c], rest)
        else none
      | _ => none
    else if 0xF0 ≤ a && a ≤ 0xF4 then
      match rest with
      | b :: c :: d :: rest =>
        if isContinuation b && isContinuation c && isContinuation d && !(a == 0xF0 && b < 0x90)
            && !(a == 0xF4 && 0x8F < b) then
          some ([a, b, c, d], rest)
        else none
      | _ => none
    else none

/-- A sequence and what follows it make up the text. -/
theorem sequence?_append {s t rest : Bytes} (h : sequence? s = some (t, rest)) : t ++ rest = s := by
  unfold sequence? at h
  split at h
  · simp at h
  · repeat' split at h
    all_goals simp at h
    all_goals obtain ⟨rfl, rfl⟩ := h; rfl

/-- A sequence has at least one byte. -/
theorem sequence?_ne_nil {s t rest : Bytes} (h : sequence? s = some (t, rest)) : t ≠ [] := by
  unfold sequence? at h
  split at h
  · simp at h
  · repeat' split at h
    all_goals simp at h
    all_goals obtain ⟨rfl, rfl⟩ := h; simp

/-- Behind a sequence there is less text left. -/
theorem sequence?_shrinks {s t rest : Bytes} (h : sequence? s = some (t, rest)) :
    rest.length < s.length := by
  have hne := List.length_pos_iff.2 (sequence?_ne_nil h)
  rw [← sequence?_append h, List.length_append]
  omega

/-- Splits a text into the well-formed sequences it starts with and the rest, at whose front no
well-formed sequence stands. -/
def sequences (s : Bytes) : List Bytes × Bytes :=
  unroll List.length sequence? sequence?_shrinks s

/-- The sequences and the rest make up the text. -/
theorem sequences_append (s : Bytes) : (sequences s).1.flatten ++ (sequences s).2 = s :=
  unroll_flatten_append sequence? sequence?_shrinks sequence?_append s

/-- The offset at which well-formedness first fails, and the byte there; nothing if the whole text
is well formed. -/
def malformed? (s : Bytes) : Option (Nat × UInt8) :=
  match sequences s with
  | (done, b :: _) => some (done.flatten.length, b)
  | (_, []) => none

/-- A text that stops being well formed somewhere is not empty. -/
theorem length_pos_of_malformed? {s : Bytes} {p : Nat × UInt8} (h : malformed? s = some p) :
    0 < s.length := by
  have happend := sequences_append s
  unfold malformed? at h
  split at h
  · next done b r hsplit =>
    rw [← happend, hsplit]
    exact List.length_pos_iff.2 (by simp)
  · simp at h

/-! ### Sequence lengths -/

/-- How many bytes the sequence of a lead byte takes, by the lead's high bits.  A byte that can
lead no sequence stands for itself. -/
def sequenceLength (lead : UInt8) : Nat :=
  if lead &&& 0x80 == 0x00 then 1
  else if lead &&& 0xE0 == 0xC0 then 2
  else if lead &&& 0xF0 == 0xE0 then 3
  else if lead &&& 0xF8 == 0xF0 then 4
  else 1

/-- A sequence has at least its first byte. -/
theorem sequenceLength_pos (lead : UInt8) : 0 < sequenceLength lead := by
  unfold sequenceLength
  repeat' split
  all_goals decide

/-! ### Lenient decoding -/

/-- What is shown for bytes that are no code point. -/
abbrev replacement : UInt32 := 0xFFFD

/-- The bits a lead byte adds to its code point and the number of continuation bytes it asks for;
nothing for a byte that can lead no sequence. -/
def lead? (b : UInt8) : Option (UInt32 × Nat) :=
  if b < 0x80 then some (b.toUInt32, 0)
  else if b &&& 0xE0 == 0xC0 then some ((b &&& 0x1F).toUInt32, 1)
  else if b &&& 0xF0 == 0xE0 then some ((b &&& 0x0F).toUInt32, 2)
  else if b &&& 0xF8 == 0xF0 then some ((b &&& 0x07).toUInt32, 3)
  else none

/-- Reads one code point from a lead byte and what follows it: the code point, and how many of the
following bytes belong to it; nothing if the byte can lead no sequence or a continuation byte is
missing. -/
def decode? (b : UInt8) (following : Bytes) : Option (UInt32 × Nat) :=
  match lead? b with
  | none => none
  | some (bits, n) =>
    let tail := following.take n
    if tail.length = n ∧ tail.all isContinuation then
      some (tail.foldl (fun cp c => (cp <<< 6) ||| (c &&& 0x3F).toUInt32) bits, n)
    else none

/-- Reads one code point for display.  If none can be read, the first byte alone is replaced. -/
def decode (b : UInt8) (following : Bytes) : UInt32 × Nat :=
  (decode? b following).getD (replacement, 0)

end ZigGolf.Utf8
