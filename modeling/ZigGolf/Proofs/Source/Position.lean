import ZigGolf.Proofs.Source.Line
import ZigGolf.Proofs.Source.Width

/-!
# Lines and columns

The line and the column that are shown for an offset are found by a search in a table and by a
lenient reading of the line.  Said without either, the line is one more than the number of line
feeds before the offset, and the column is one more than the columns of the characters between the
last of them and the offset, if these bytes are characters (`position_line_column`).  An offset
behind the end of a file means its end.
-/

namespace ZigGolf

namespace SourceFile

variable {f : SourceFile} {offset : UInt32} {before left : Bytes}

/-- An offset that is cut to the size of its file. -/
lemma toNat_min_size (hlength : f.content.size < 2 ^ 32) (offset : UInt32) :
    (min offset f.size).toNat = min offset.toNat f.content.size := by
  have hsize := toNat_size hlength
  change (if offset ≤ f.size then offset else f.size).toNat = _
  split
  · next hle =>
    rw [UInt32.le_iff_toNat_le, hsize] at hle
    rw [Nat.min_eq_left hle]
  · next hlt =>
    rw [UInt32.le_iff_toNat_le, hsize] at hlt
    rw [hsize, Nat.min_eq_right (by omega)]

/-- The text of a file up to an offset, or up to its end if the offset lies behind it. -/
def upTo (f : SourceFile) (offset : UInt32) : Bytes :=
  f.content.toList.take (min offset.toNat f.content.size)

section Short

variable (hlength : f.content.size < 2 ^ 32 - 1)
include hlength

lemma length_upTo : (f.upTo offset).length = (min offset f.size).toNat := by
  rw [toNat_min_size (Nat.lt_of_lt_pred hlength), upTo, List.length_take, Array.length_toList]
  omega

/-- The search in the table finds the number of line feeds before an offset. -/
lemma lastAtMost_eq_count :
    lastAtMost f.starts (min offset f.size) 0 f.starts.size = (f.upTo offset).count lineFeed := by
  have hword := Nat.lt_of_lt_pred hlength
  have hoffset := toNat_min_size hword offset
  rw [lastAtMost_starts hword (by omega), hoffset]
  rfl

/-- The line of an offset counts the line feeds before it. -/
lemma toNat_line_position :
    (f.position offset).line.toNat = 1 + (f.upTo offset).count lineFeed := by
  have hcount : (f.upTo offset).count lineFeed ≤ f.content.size :=
    count_take_le f.content.toList _ |>.trans List.count_le_length
  have hposition : (f.position offset).line =
      (lastAtMost f.starts (min offset f.size) 0 f.starts.size).toUInt32 + 1 := rfl
  rw [hposition, lastAtMost_eq_count hlength, UInt32.toNat_add, Nat.toUInt32, UInt32.toNat_ofNat',
    UInt32.toNat_one]
  omega

/-- The column of an offset counts the columns from the last line feed before it. -/
lemma column_position (hupTo : f.upTo offset = before ++ left)
    (hbefore : ∀ b ∈ before.getLast?, b = lineFeed) (hleft : lineFeed ∉ left) :
    (f.position offset).column = displayWidth left.length left + 1 := by
  have hoffset : (f.upTo offset).length = (min offset f.size).toNat := length_upTo hlength
  obtain ⟨rest, hrest⟩ : ∃ rest, f.content.toList = f.upTo offset ++ rest :=
    ⟨_, (List.take_append_drop _ _).symm⟩
  have hsplit := lineSplit_append hbefore hleft rest
  rw [← hupTo, ← hrest] at hsplit
  have hslice := slice_lineStart (Nat.lt_of_lt_pred hlength) hsplit (hupTo ▸ hoffset.symm)
  rw [position]
  dsimp only
  rw [hslice]

end Short

end SourceFile

/-! ### Result -/

/-- The line and the column of an offset in a file that is known to a registry.  The search in the
table of lines finds the number of line feeds before the offset, and the line is one more.  If the
bytes between the last of these line feeds and the offset are the encoding of some characters, the
column is one more than the columns that the characters take, up to multiples of the size of a
word. -/
theorem position_line_column {registry : Registry} {file : UInt32} {f : SourceFile}
    (hfile : registry.file? file = some f) (hlength : f.content.size < 2 ^ 32 - 1)
    (offset : UInt32) :
    lastAtMost f.starts (min offset f.size) 0 f.starts.size = (f.upTo offset).count lineFeed ∧
      (registry.position file offset).line.toNat = 1 + (f.upTo offset).count lineFeed ∧
      ∀ before left (text : List Char), f.upTo offset = before ++ left →
        (∀ b ∈ before.getLast?, b = lineFeed) → lineFeed ∉ left →
        left = text.flatMap String.utf8EncodeChar →
          (registry.position file offset).column.toNat =
            (1 + (text.map fun c => (codePointWidth c.val).toNat).sum) % 2 ^ 32 := by
  have hposition : registry.position file offset = f.position offset := by
    rw [Registry.position, hfile]
  rw [hposition]
  refine ⟨SourceFile.lastAtMost_eq_count hlength, SourceFile.toNat_line_position hlength, ?_⟩
  rintro before left text hupTo hbefore hleft rfl
  rw [SourceFile.column_position hlength hupTo hbefore hleft, UInt32.toNat_add,
    toNat_displayWidth_flatMap, UInt32.toNat_one, Nat.mod_add_mod, Nat.add_comm]

/-- A tab and a wide character stand between the line feed and the offset. -/
theorem position_line_column_of_wide :
    let content := ascii "x\n\t" ++ [0xE4, 0xB8, 0x96] ++ ascii "y\n"
    let registry : Registry := (({} : Registry).add (ascii "x.zig") content).2
    (registry.position 0 6).line.toNat = 2 ∧ (registry.position 0 6).column.toNat = 7 := by
  intro content registry
  obtain ⟨-, hline, hcolumn⟩ := @position_line_column registry 0 (.ofBytes (ascii "x.zig") content)
    rfl (by decide) 6
  have hupTo : (SourceFile.ofBytes (ascii "x.zig") content).upTo 6 =
      ascii "x\n" ++ (ascii "\t" ++ [0xE4, 0xB8, 0x96]) := by
    decide
  rw [hupTo] at hline
  exact ⟨hline, hcolumn (ascii "x\n") _ ['\t', Char.ofNat 0x4E16] hupTo
    (fun b hb => (Option.some.inj hb).symm) (by decide) (by decide)⟩

end ZigGolf
