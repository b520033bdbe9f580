import ZigGolf.Diagnostic.Report
import ZigGolf.Proofs.Source.Snippet

/-!
# The mark in a report

A report shows the source around its place.  Wanted are the line of the place with the mark directly
below it, and as many lines above and below as are asked for and there are.  That is what is shown
as long as the number of the line and the number of lines asked for add up to a word.  If their sum
does not fit in a word, the lines end before the line of the place, and no mark is shown at all
(`reportInContext_rows`).
-/

namespace ZigGolf

/-! ### Rows -/

/-- The row above all lines, with line numbers in a column of a given width. -/
def topRow (width : Nat) : Bytes := spaces (width + 3) ++ ascii "|\n"

/-- A line behind its number, which ends in a column of a given width. -/
def numberedRow (width number : Nat) (line : Bytes) : Bytes :=
  spaces 2 ++ spaces (width - (decimal number).length) ++ decimal number ++ ascii " | " ++ line
    ++ [lineFeed]

/-- Lines one below the other, numbered from a given number on. -/
def numberedRows (width number : Nat) (lines : List Bytes) : Bytes :=
  (lines.mapIdx fun i line => numberedRow width (number + i) line).flatten

namespace Snippet

variable {s : Snippet} {width : Nat}

/-- What is shown for a line: its row, and the mark below it if it is the marked line. -/
def block (s : Snippet) (width i : Nat) (line : Bytes) : Bytes :=
  s.lineRow width i line ++ if i = s.markLine.toNat then s.markRow width else []

lemma rows_eq (s : Snippet) :
    s.rows = topRow s.numberWidth ++ (s.lines.mapIdx (s.block s.numberWidth)).flatten := rfl

/-- Rows are numbered as the lines are, if the numbers fit in a word. -/
lemma lineRow_eq {i : Nat} (h : s.firstLine.toNat + i < 2 ^ 32) (width : Nat) (line : Bytes) :
    s.lineRow width i line = numberedRow width (s.firstLine.toNat + i) line := by
  have hnumber : (s.firstLine + i.toUInt32).toNat = s.firstLine.toNat + i := by
    have hi : i < 2 ^ 32 := by omega
    rw [UInt32.toNat_add, Nat.toUInt32, UInt32.toNat_ofNat', Nat.mod_eq_of_lt hi,
      Nat.mod_eq_of_lt h]
  rw [lineRow, hnumber, numberedRow]

/-- Lines of which none is marked are shown as their rows. -/
lemma flatten_mapIdx_block {lines : List Bytes} {k : Nat}
    (hnumbers : s.firstLine.toNat + k + lines.length ≤ 2 ^ 32)
    (hmark : ∀ i < lines.length, i + k ≠ s.markLine.toNat) (width : Nat) :
    (lines.mapIdx fun i => s.block width (i + k)).flatten =
      numberedRows width (s.firstLine.toNat + k) lines := by
  rw [numberedRows]
  refine congrArg List.flatten (List.ext_getElem? fun i => ?_)
  rw [List.getElem?_mapIdx, List.getElem?_mapIdx]
  cases hline : lines[i]? with
  | none => rfl
  | some line =>
    have hi : i < lines.length := (List.getElem?_eq_some_iff.1 hline).1
    have hnumber : s.firstLine.toNat + (i + k) = s.firstLine.toNat + k + i := by omega
    rw [Option.map_some, Option.map_some, block, if_neg (hmark i hi), List.append_nil,
      lineRow_eq (by omega), hnumber]

/-- The mark stands below the marked line, and nowhere else. -/
lemma rows_of_eq_append {above below : List Bytes} {line : Bytes}
    (hlines : s.lines = above ++ line :: below) (hmark : s.markLine.toNat = above.length)
    (hnumbers : s.firstLine.toNat + s.lines.length ≤ 2 ^ 32) :
    s.rows = topRow s.numberWidth ++ numberedRows s.numberWidth s.firstLine.toNat above
      ++ numberedRow s.numberWidth (s.firstLine.toNat + above.length) line
      ++ s.markRow s.numberWidth
      ++ numberedRows s.numberWidth (s.firstLine.toNat + above.length + 1) below := by
  rw [hlines, List.length_append, List.length_cons] at hnumbers
  have habove : (above.mapIdx (s.block s.numberWidth)).flatten =
      numberedRows s.numberWidth s.firstLine.toNat above :=
    flatten_mapIdx_block (k := 0) (by omega) (fun i hi => by omega) s.numberWidth
  have hbelow : (below.mapIdx fun i => s.block s.numberWidth (i + 1 + above.length)).flatten =
      numberedRows s.numberWidth (s.firstLine.toNat + above.length + 1) below := by
    have hrows := @flatten_mapIdx_block s below (1 + above.length) (by omega)
      (fun i hi => by omega) s.numberWidth
    have hnumber : s.firstLine.toNat + (1 + above.length) =
        s.firstLine.toNat + above.length + 1 := by omega
    rw [hnumber] at hrows
    rw [← hrows]
    simp only [Nat.add_assoc]
  have hline : s.block s.numberWidth (0 + above.length) line =
      numberedRow s.numberWidth (s.firstLine.toNat + above.length) line
        ++ s.markRow s.numberWidth := by
    rw [Nat.zero_add, block, if_pos hmark.symm, lineRow_eq (by omega)]
  rw [rows_eq, hlines, List.mapIdx_append, List.mapIdx_cons, List.flatten_append,
    List.flatten_cons, hline, habove, hbelow]
  simp only [List.append_assoc]

/-- There is no mark if the line to mark is not among the lines. -/
lemma rows_of_length_le (hmark : s.lines.length ≤ s.markLine.toNat)
    (hnumbers : s.firstLine.toNat + s.lines.length ≤ 2 ^ 32) :
    s.rows = topRow s.numberWidth ++ numberedRows s.numberWidth s.firstLine.toNat s.lines := by
  have hlines : (s.lines.mapIdx (s.block s.numberWidth)).flatten =
      numberedRows s.numberWidth s.firstLine.toNat s.lines :=
    flatten_mapIdx_block (k := 0) (by omega) (fun i hi => by omega) s.numberWidth
  rw [rows_eq, hlines]

end Snippet

/-- The rows of a snippet stand below the report, if it has any lines. -/
lemma Diagnostic.reportInContext_eq (d : Diagnostic) (registry : Registry) (context : UInt32) :
    d.reportInContext registry context = d.report registry ++
      if (registry.snippet d.span context).lines = [] then []
      else (registry.snippet d.span context).rows := by
  rw [Diagnostic.reportInContext]
  by_cases h : (registry.snippet d.span context).lines = []
  · rw [if_pos h, if_pos (List.isEmpty_iff.2 h), List.append_nil]
  · rw [if_neg h, if_neg fun hempty => h (List.isEmpty_iff.1 hempty)]

/-! ### Lines around a line -/

/-- An element of a list with up to `k` elements on each side. -/
lemma drop_take_around {α : Type} {xs : List α} {i : Nat} {x : α} (h : xs[i]? = some x) (k : Nat) :
    (xs.take (i + k + 1)).drop (i - k) =
      (xs.take i).drop (i - k) ++ x :: (xs.drop (i + 1)).take k := by
  have hlength : (xs.take i).length = i := by
    have hi := (List.getElem?_eq_some_iff.1 h).1
    rw [List.length_take]
    omega
  have htake : xs.take (i + k + 1) = xs.take i ++ x :: (xs.drop (i + 1)).take k := by
    have hsum : i + k + 1 = (xs.take i).length + (k + 1) := by omega
    conv_lhs =>
      rw [eq_take_append_cons_drop h, hsum, List.take_length_add_append, List.take_succ_cons]
  rw [htake, List.drop_append_of_le_length (by omega)]

namespace SourceFile

variable {f : SourceFile} (hlength : f.content.size < 2 ^ 32 - 1) (lo hi context : UInt32)
include hlength

/-- How many lines are shown. -/
lemma length_lines_snippet :
    (f.snippet lo hi context).lines.length =
      min (((f.upTo lo).count lineFeed + context.toNat) % 2 ^ 32 + 1) f.lines.length -
        ((f.upTo lo).count lineFeed - context.toNat) := by
  rw [lines_snippet hlength, List.length_drop, List.length_take]

/-- The line to mark is shown if and only if its number and the number of lines asked for add up to
a word. -/
lemma markLine_lt_iff :
    (f.snippet lo hi context).markLine.toNat < (f.snippet lo hi context).lines.length ↔
      (f.upTo lo).count lineFeed + context.toNat < 2 ^ 32 := by
  have hcaret := f.count_upTo_lt lo
  have hword := length_lines_lt hlength
  have hcontext : context.toNat < 2 ^ 32 := context.toNat_lt
  rw [length_lines_snippet hlength, toNat_markLine_snippet hlength]
  by_cases hsum : (f.upTo lo).count lineFeed + context.toNat < 2 ^ 32
  · rw [Nat.mod_eq_of_lt hsum]
    omega
  · have hwrap : ((f.upTo lo).count lineFeed + context.toNat) % 2 ^ 32 =
        (f.upTo lo).count lineFeed + context.toNat - 2 ^ 32 := by omega
    rw [hwrap]
    omega

/-- The numbers of all lines shown fit in a word. -/
lemma firstLine_add_length_le :
    (f.snippet lo hi context).firstLine.toNat + (f.snippet lo hi context).lines.length ≤
      2 ^ 32 := by
  have hcaret := f.count_upTo_lt lo
  have hword := length_lines_lt hlength
  rw [length_lines_snippet hlength, toNat_firstLine_snippet hlength]
  omega

/-- The rows around the line in which a span starts, if its number and the number of lines asked for
add up to a word. -/
lemma exists_rows_snippet (hsum : (f.upTo lo).count lineFeed + context.toNat < 2 ^ 32) :
    let s := f.snippet lo hi context
    let caret := (f.upTo lo).count lineFeed
    ∃ line, f.lines[caret]? = some line ∧ s.lines ≠ [] ∧
      s.rows = topRow s.numberWidth
        ++ numberedRows s.numberWidth (caret - context.toNat + 1)
          ((f.lines.take caret).drop (caret - context.toNat))
        ++ numberedRow s.numberWidth (caret + 1) line ++ s.markRow s.numberWidth
        ++ numberedRows s.numberWidth (caret + 2)
          ((f.lines.drop (caret + 1)).take context.toNat) := by
  intro s caret
  have hcaret : caret < f.lines.length := f.count_upTo_lt lo
  have hline := List.getElem?_eq_getElem hcaret
  have hlines := lines_snippet hlength lo hi context
  rw [Nat.mod_eq_of_lt hsum, drop_take_around hline] at hlines
  have habove : ((f.lines.take caret).drop (caret - context.toNat)).length =
      caret - (caret - context.toNat) := by
    rw [List.length_drop, List.length_take, Nat.min_eq_left hcaret.le]
  have hmark : s.markLine.toNat = ((f.lines.take caret).drop (caret - context.toNat)).length :=
    (toNat_markLine_snippet hlength lo hi context).trans habove.symm
  have hrows := Snippet.rows_of_eq_append hlines hmark
    (firstLine_add_length_le hlength lo hi context)
  have hnumber : caret - context.toNat + 1 + (caret - (caret - context.toNat)) = caret + 1 := by
    omega
  rw [habove, toNat_firstLine_snippet hlength, hnumber] at hrows
  refine ⟨_, hline, ?_, hrows⟩
  rw [hlines]
  exact List.append_ne_nil_of_right_ne_nil _ (List.cons_ne_nil _ _)

end SourceFile

/-! ### Result -/

/-- The report of a diagnostic with the source around its place.  If the number of lines before that
of the place and the number of lines asked for add up to a word, the lines shown are the one that
the report names with the mark directly below it, and the lines asked for above and below as far as
there are any.  Otherwise all lines shown are before the one that the report names, and there is no
mark. -/
theorem reportInContext_rows {registry : Registry} {d : Diagnostic} {f : SourceFile}
    (hfile : registry.file? d.span.file = some f) (hlength : f.content.size < 2 ^ 32 - 1)
    (context : UInt32) :
    let s := registry.snippet d.span context
    let width := s.numberWidth
    let caret := (f.upTo d.span.lo).count lineFeed
    (registry.position d.span.file d.span.lo).line.toNat = caret + 1 ∧
      (s.markLine.toNat < s.lines.length ↔ caret + context.toNat < 2 ^ 32) ∧
      (caret + context.toNat < 2 ^ 32 →
        ∃ line, f.lines[caret]? = some line ∧
          d.reportInContext registry context = d.report registry ++ (topRow width
            ++ numberedRows width (caret - context.toNat + 1)
              ((f.lines.take caret).drop (caret - context.toNat))
            ++ numberedRow width (caret + 1) line ++ s.markRow width
            ++ numberedRows width (caret + 2) ((f.lines.drop (caret + 1)).take context.toNat))) ∧
      (2 ^ 32 ≤ caret + context.toNat →
        d.reportInContext registry context = d.report registry ++
          if s.lines = [] then [] else topRow width ++ numberedRows width s.firstLine.toNat s.lines)
      := by
  intro s width caret
  have hs : s = f.snippet d.span.lo d.span.hi context := by
    simp only [s, Registry.snippet, hfile]
  have hposition : registry.position d.span.file d.span.lo = f.position d.span.lo := by
    rw [Registry.position, hfile]
  have hmark := SourceFile.markLine_lt_iff hlength d.span.lo d.span.hi context
  have hnumbers := SourceFile.firstLine_add_length_le hlength d.span.lo d.span.hi context
  rw [← hs] at hmark hnumbers
  refine ⟨?_, hmark, ?_, ?_⟩
  · rw [hposition, SourceFile.toNat_line_position hlength, Nat.add_comm]
  · intro hsum
    obtain ⟨line, hline, hne, hrows⟩ :=
      SourceFile.exists_rows_snippet hlength d.span.lo d.span.hi context hsum
    rw [← hs] at hne hrows
    refine ⟨line, hline, ?_⟩
    rw [Diagnostic.reportInContext_eq, if_neg hne, hrows]
  · intro hsum
    have hle : s.lines.length ≤ s.markLine.toNat :=
      Nat.le_of_not_lt fun hlt => absurd (hmark.1 hlt) (Nat.not_lt.2 hsum)
    rw [Diagnostic.reportInContext_eq, Snippet.rows_of_length_le hle hnumbers]

/-- The most lines that can be asked for around the second line of a file. -/
theorem reportInContext_rows_of_second :
    let registry : Registry := (({} : Registry).add (ascii "x.zig") (ascii "a\n$")).2
    let d : Diagnostic := ⟨.error, .invalidToken, ⟨0, 2, 3⟩, [ascii "$"]⟩
    d.reportInContext registry 0xFFFFFFFE =
      ascii "error[InvalidToken]: invalid token '$'\n --> x.zig:2:1\n"
        ++ ascii "    |\n  1 | a\n  2 | $\n    | ^\n" := by
  intro registry d
  obtain ⟨-, -, hrows, -⟩ := @reportInContext_rows registry d
    (.ofBytes (ascii "x.zig") (ascii "a\n$")) rfl (by decide) 0xFFFFFFFE
  obtain ⟨line, hline, hreport⟩ := hrows (by decide +kernel)
  obtain rfl : ascii "$" = line := by
    refine Option.some.inj (Eq.trans ?_ hline)
    decide +kernel
  exact hreport.trans (by decide +kernel)

/-- One more line asked for, and neither the line nor the mark is shown. -/
theorem reportInContext_loses_mark :
    let registry : Registry := (({} : Registry).add (ascii "x.zig") (ascii "a\n$")).2
    let d : Diagnostic := ⟨.error, .invalidToken, ⟨0, 2, 3⟩, [ascii "$"]⟩
    ¬(registry.snippet d.span 0xFFFFFFFF).markLine.toNat <
        (registry.snippet d.span 0xFFFFFFFF).lines.length ∧
      d.reportInContext registry 0xFFFFFFFF =
        ascii "error[InvalidToken]: invalid token '$'\n --> x.zig:2:1\n"
          ++ ascii "    |\n  1 | a\n" := by
  decide +kernel

end ZigGolf
