import Mathlib.Algebra.Group.Nat.Defs
import Mathlib.Data.List.Induction
import ZigGolf.Proofs.Lexing.Reading
import ZigGolf.Source.Registry

/-!
# Lines

The table of lines answers which line holds an offset by counting: an entry is at most an offset if
and only if at least as many line feeds stand before the offset (`IsLineTable`).  So the search in
the table finds the number of line feeds before an offset, and the start and the end of the line
found are the nearest line feeds around the offset (`SourceFile.lineStart_lineAt`,
`SourceFile.lineEnd_lineAt`).
-/

namespace ZigGolf

/-! ### The table -/

/-- The tables in which entry `j` is the least offset that has `j` line feeds before it. -/
structure IsLineTable (s : Bytes) (table : Array UInt32) : Prop where
  size_eq : table.size = s.count lineFeed + 1
  le_iff : ∀ {j offset : Nat}, j < table.size → offset ≤ s.length →
    ((table.getD j 0).toNat ≤ offset ↔ j ≤ (s.take offset).count lineFeed)

/-- In front of a place there are no more line feeds than in all. -/
lemma count_take_le (s : Bytes) (offset : Nat) :
    (s.take offset).count lineFeed ≤ s.count lineFeed :=
  (List.take_sublist offset s).count_le lineFeed

/-- The step of `lineStarts`: the offset behind a byte, which is an entry if the byte is a line
feed. -/
def lineStep (state : UInt32 × Array UInt32) (b : UInt8) : UInt32 × Array UInt32 :=
  (state.1 + 1, if b = lineFeed then state.2.push (state.1 + 1) else state.2)

/-- The lines are found going through the bytes one by one. -/
lemma lineStarts_eq (content : Array UInt8) :
    lineStarts content = (content.toList.foldl lineStep (0, #[0])).2 := by
  rw [Array.foldl_toList]
  rfl

/-- The empty text has one line. -/
lemma isLineTable_nil : IsLineTable [] #[0] := by
  refine ⟨rfl, fun {j offset} hj _ => ?_⟩
  obtain rfl : j = 0 := Nat.lt_one_iff.1 hj
  simp

section Table

variable {s : Bytes} {table : Array UInt32}

/-- Entries stay right when the text goes on. -/
lemma IsLineTable.le_iff_concat (h : IsLineTable s table) (b : UInt8) {j offset : Nat}
    (hj : j < table.size) (hoffset : offset ≤ s.length + 1) :
    (table.getD j 0).toNat ≤ offset ↔ j ≤ ((s ++ [b]).take offset).count lineFeed := by
  rcases Nat.lt_or_eq_of_le hoffset with hlt | rfl
  · rw [List.take_append_of_le_length (Nat.le_of_lt_succ hlt)]
    exact h.le_iff hj (Nat.le_of_lt_succ hlt)
  · have hcount : j ≤ s.count lineFeed := by
      rw [h.size_eq] at hj
      exact Nat.le_of_lt_succ hj
    have hentry := (h.le_iff hj (Nat.le_refl s.length)).2 (by rwa [List.take_length])
    rw [List.take_of_length_le (by simp), List.count_append]
    exact ⟨fun _ => hcount.trans (Nat.le_add_right _ _), fun _ => hentry.trans (Nat.le_succ _)⟩

/-- A line feed adds the offset behind it to the table, and no other byte adds an entry. -/
lemma IsLineTable.concat (h : IsLineTable s table) (b : UInt8) (hlength : s.length + 1 < 2 ^ 32) :
    IsLineTable (s ++ [b])
      (if b = lineFeed then table.push (UInt32.ofNat s.length + 1) else table) := by
  split
  · next hb =>
    subst hb
    have hcount : (s ++ [lineFeed]).count lineFeed = s.count lineFeed + 1 := by simp
    refine ⟨by rw [Array.size_push, h.size_eq, hcount], fun {j offset} hj hoffset => ?_⟩
    rw [Array.size_push] at hj
    rw [List.length_append, List.length_singleton] at hoffset
    rcases Nat.lt_succ_iff_lt_or_eq.1 hj with hlt | rfl
    · have hget : (table.push (UInt32.ofNat s.length + 1)).getD j 0 = table.getD j 0 := by
        simp [Array.getD, hlt, Nat.lt_succ_of_lt hlt, Array.getElem_push_lt]
      rw [hget]
      exact h.le_iff_concat lineFeed hlt hoffset
    · have hget : ((table.push (UInt32.ofNat s.length + 1)).getD table.size 0).toNat =
          s.length + 1 := by
        have hlast : (table.push (UInt32.ofNat s.length + 1)).getD table.size 0 =
            UInt32.ofNat s.length + 1 := by simp [Array.getD]
        rw [hlast, UInt32.toNat_add, UInt32.toNat_ofNat', UInt32.toNat_one]
        omega
      rw [hget, h.size_eq]
      rcases Nat.lt_or_eq_of_le hoffset with hlt | rfl
      · have hle := count_take_le s offset
        rw [List.take_append_of_le_length (Nat.le_of_lt_succ hlt)]
        omega
      · rw [List.take_of_length_le (by simp), hcount]
        simp
  · next hb =>
    have hcount : (s ++ [b]).count lineFeed = s.count lineFeed := by simp [hb]
    refine ⟨by rw [h.size_eq, hcount], fun {j offset} hj hoffset => ?_⟩
    exact h.le_iff_concat b hj (by simpa using hoffset)

/-- The table of a short text is right. -/
lemma isLineTable_lineStarts {content : Array UInt8} (hlength : content.size < 2 ^ 32) :
    IsLineTable content.toList (lineStarts content) := by
  have hfold : ∀ s : Bytes, s.length < 2 ^ 32 →
      (s.foldl lineStep (0, #[0])).1 = UInt32.ofNat s.length ∧
        IsLineTable s (s.foldl lineStep (0, #[0])).2 := by
    intro s
    induction s using List.reverseRecOn with
    | nil => exact fun _ => ⟨rfl, isLineTable_nil⟩
    | append_singleton s b ih =>
      intro hs
      rw [List.length_append, List.length_singleton] at hs ⊢
      obtain ⟨hoffset, htable⟩ := ih (by omega)
      rw [List.foldl_append, List.foldl_cons, List.foldl_nil, lineStep, hoffset]
      exact ⟨by rw [UInt32.ofNat_add]; rfl, htable.concat b hs⟩
  rw [lineStarts_eq]
  exact (hfold content.toList hlength).2

/-- The search finds the number of line feeds before an offset. -/
lemma IsLineTable.lastAtMost_eq (h : IsLineTable s table) {offset : UInt32}
    (hoffset : offset.toNat ≤ s.length) {lo hi : Nat}
    (hlo : lo ≤ (s.take offset.toNat).count lineFeed)
    (hhi : (s.take offset.toNat).count lineFeed < hi) (hsize : hi ≤ table.size) :
    lastAtMost table offset lo hi = (s.take offset.toNat).count lineFeed := by
  fun_induction lastAtMost table offset lo hi with
  | case1 lo hi hadjacent => omega
  | case2 lo hi hapart middle hmiddle ih =>
    rw [UInt32.le_iff_toNat_le, h.le_iff (by omega) hoffset] at hmiddle
    exact ih hmiddle hhi hsize
  | case3 lo hi hapart middle hmiddle ih =>
    rw [UInt32.le_iff_toNat_le, h.le_iff (by omega) hoffset] at hmiddle
    exact ih hlo (Nat.lt_of_not_le hmiddle) (by omega)

/-- Entry `j` is the first offset that has `j` line feeds before it. -/
lemma IsLineTable.getD_eq (h : IsLineTable s table) {j offset : Nat} (hoffset : offset ≤ s.length)
    (hj : j ≤ (s.take offset).count lineFeed)
    (hfirst : ∀ before < offset, (s.take before).count lineFeed < j) :
    (table.getD j 0).toNat = offset := by
  have hsize : j < table.size := by
    have hle := count_take_le s offset
    rw [h.size_eq]
    omega
  have hle := (h.le_iff hsize hoffset).2 hj
  refine Nat.le_antisymm hle (Nat.le_of_not_lt fun hlt => ?_)
  have hcount := (h.le_iff hsize (hlt.le.trans hoffset)).1 (Nat.le_refl _)
  exact absurd (hfirst _ hlt) (Nat.not_lt.2 hcount)

end Table

/-! ### A line in its text -/

/-- A text taken apart at an offset within a line: what stands before the line, the line up to the
offset, the line from the offset on, and what stands behind the line. -/
structure LineSplit (s before left right after : Bytes) : Prop where
  eq_append : s = before ++ left ++ right ++ after
  eq_of_mem_getLast? : ∀ b ∈ before.getLast?, b = lineFeed
  notMem_left : lineFeed ∉ left
  notMem_right : lineFeed ∉ right
  eq_of_mem_head? : ∀ b ∈ after.head?, b = lineFeed

/-- A text is taken apart at an offset by the last line feed before it and the first one behind
it. -/
lemma lineSplit_append {before left : Bytes} (hbefore : ∀ b ∈ before.getLast?, b = lineFeed)
    (hleft : lineFeed ∉ left) (c : Bytes) :
    LineSplit (before ++ left ++ c) before left (firstLine c) (afterFirstLine c) := by
  refine ⟨?_, hbefore, hleft, lineFeed_notMem_firstLine c,
    eq_lineFeed_of_mem_head?_afterFirstLine c⟩
  rw [List.append_assoc (before ++ left), firstLine_append_afterFirstLine]

/-- Every offset lies within a line. -/
lemma exists_lineSplit (a c : Bytes) :
    ∃ before left right after, a = before ++ left ∧ LineSplit (a ++ c) before left right after := by
  have hleft : ∃ before left, a = before ++ left ∧ (∀ b ∈ before.getLast?, b = lineFeed) ∧
      lineFeed ∉ left := by
    induction a using List.reverseRecOn with
    | nil => exact ⟨[], [], by simp⟩
    | append_singleton a b ih =>
      by_cases hb : b = lineFeed
      · exact ⟨a ++ [b], [], by simp [hb]⟩
      · obtain ⟨before, left, rfl, hbefore, hmem⟩ := ih
        exact ⟨before, left ++ [b], by simp, hbefore, by simp [hmem, Ne.symm hb]⟩
  obtain ⟨before, left, rfl, hbefore, hmem⟩ := hleft
  exact ⟨before, left, _, _, rfl, lineSplit_append hbefore hmem c⟩

variable {s before left right after : Bytes}

/-- All line feeds in front of an offset stand before its line. -/
lemma LineSplit.count_take (h : LineSplit s before left right after) :
    (s.take (before ++ left).length).count lineFeed = before.count lineFeed := by
  rw [h.eq_append, List.append_assoc, List.take_left, List.count_append,
    List.count_eq_zero.2 h.notMem_left, Nat.add_zero]

/-- A place that is split at lies within the text. -/
lemma LineSplit.length_le (h : LineSplit s before left right after) :
    (before ++ left).length ≤ s.length := by
  simp only [h.eq_append, List.length_append]
  omega

/-- In front of a later place there are no fewer line feeds. -/
lemma count_take_mono (s : Bytes) {m n : Nat} (h : m ≤ n) :
    (s.take m).count lineFeed ≤ (s.take n).count lineFeed := by
  rw [← Nat.min_eq_left h, ← List.take_take]
  exact count_take_le (s.take n) m

variable {table : Array UInt32}

/-- The start of a line is found in the table. -/
lemma IsLineTable.start_of_lineSplit (htable : IsLineTable s table)
    (h : LineSplit s before left right after) :
    (table.getD (before.count lineFeed) 0).toNat = before.length := by
  have hsplit : s = before ++ (left ++ right ++ after) := by
    rw [h.eq_append]
    simp
  refine htable.getD_eq (by simp [hsplit]) (by rw [hsplit, List.take_left]) fun m hm => ?_
  -- the last byte before the line is a line feed
  obtain ⟨front, b, rfl⟩ : ∃ front b, before = front ++ [b] := by
    rcases List.eq_nil_or_concat before with rfl | ⟨front, b, rfl⟩
    · simp at hm
    · exact ⟨front, b, List.concat_eq_append⟩
  obtain rfl := h.eq_of_mem_getLast? b (by simp)
  have hle := count_take_mono s (Nat.le_of_lt_succ (by simpa using hm) : m ≤ front.length)
  rw [hsplit, List.append_assoc, List.take_left, ← List.append_assoc, ← hsplit] at hle
  rw [List.count_append, List.count_singleton_self]
  omega

/-- The start of the line behind a line is found in the table, if there is one. -/
lemma IsLineTable.next_of_lineSplit (htable : IsLineTable s table)
    (h : LineSplit s before left right (lineFeed :: after)) :
    (table.getD (before.count lineFeed + 1) 0).toNat = (before ++ left ++ right).length + 1 := by
  have hsplit : s = before ++ left ++ right ++ [lineFeed] ++ after := by
    rw [h.eq_append]
    simp
  have hcount : (before ++ left ++ right).count lineFeed = before.count lineFeed := by
    rw [List.count_append, List.count_append, List.count_eq_zero.2 h.notMem_left,
      List.count_eq_zero.2 h.notMem_right]
    rfl
  have hlength : (before ++ left ++ right ++ [lineFeed]).length =
      (before ++ left ++ right).length + 1 := List.length_append
  rw [← hlength]
  refine htable.getD_eq (by simp [hsplit]) ?_ fun m hm => ?_
  · rw [hsplit, List.take_left, List.count_append, hcount, List.count_singleton_self]
  · have hle := count_take_mono s (Nat.le_of_lt_succ (hlength ▸ hm))
    rw [h.eq_append, List.take_left, ← h.eq_append, hcount] at hle
    omega

/-! ### Files -/

namespace SourceFile

variable {f : SourceFile} {offset : UInt32}

/-- The size of a file does not wrap around. -/
lemma toNat_size (hlength : f.content.size < 2 ^ 32) : f.size.toNat = f.content.size := by
  rw [size, Nat.toUInt32, UInt32.toNat_ofNat', Nat.mod_eq_of_lt hlength]

/-- A file holds the table of its lines. -/
lemma isLineTable_starts (hlength : f.content.size < 2 ^ 32) :
    IsLineTable f.content.toList f.starts := by
  rw [f.starts_eq]
  exact isLineTable_lineStarts hlength

/-- A slice of a file, in terms of the list of its bytes. -/
lemma slice_eq (f : SourceFile) (lo hi : UInt32) :
    f.slice lo hi = (f.content.toList.drop lo.toNat).take (hi.toNat - lo.toNat) := by
  rw [slice, Array.toList_extract, List.extract_eq_take_drop]

/-- The search in the table of a file finds the number of line feeds before an offset. -/
lemma lastAtMost_starts (hlength : f.content.size < 2 ^ 32)
    (hoffset : offset.toNat ≤ f.content.size) :
    lastAtMost f.starts offset 0 f.starts.size =
      (f.content.toList.take offset.toNat).count lineFeed := by
  have htable := isLineTable_starts hlength
  have hle := count_take_le f.content.toList offset.toNat
  exact htable.lastAtMost_eq hoffset (Nat.zero_le _) (by rw [htable.size_eq]; omega)
    (Nat.le_refl _)

section Split

variable (hlength : f.content.size < 2 ^ 32)
  (h : LineSplit f.content.toList before left right after)
  (hoffset : offset.toNat = (before ++ left).length)
include hlength h hoffset

/-- The number of a line is the number of line feeds before it. -/
lemma toNat_lineAt : (f.lineAt offset).toNat = before.count lineFeed := by
  have htotal : (before ++ left).length ≤ f.content.size := h.length_le
  have hcount := h.count_take
  rw [← hoffset] at htotal hcount
  have hword : before.count lineFeed < 2 ^ 32 := by
    have hbefore : before.count lineFeed ≤ before.length := List.count_le_length
    rw [hoffset, List.length_append] at htotal
    omega
  rw [lineAt, lastAtMost_starts hlength htotal, hcount, Nat.toUInt32, UInt32.toNat_ofNat',
    Nat.mod_eq_of_lt hword]

/-- The line of a place starts behind the lines in front of it. -/
lemma toNat_lineStart : (f.lineStart (f.lineAt offset)).toNat = before.length := by
  rw [lineStart, toNat_lineAt hlength h hoffset]
  exact (isLineTable_starts hlength).start_of_lineSplit h

/-- The line of a place ends in front of its line feed. -/
lemma toNat_lineEnd :
    (f.lineEnd (f.lineAt offset)).toNat = (before ++ left ++ right).length := by
  have htable := isLineTable_starts hlength
  rw [lineEnd, toNat_lineAt hlength h hoffset]
  cases after with
  | nil =>
    -- the line is the last one
    have hnone : f.starts[before.count lineFeed + 1]? = none := by
      rw [Array.getElem?_eq_none_iff, htable.size_eq, h.eq_append, List.append_nil,
        List.count_append, List.count_append, List.count_eq_zero.2 h.notMem_left,
        List.count_eq_zero.2 h.notMem_right]
    have hsize : f.content.size = (before ++ left ++ right).length := by
      rw [← Array.length_toList, h.eq_append, List.append_nil]
    rw [hnone, toNat_size hlength, hsize]
  | cons b after =>
    obtain rfl := h.eq_of_mem_head? b rfl
    have hnext := htable.next_of_lineSplit h
    cases hget : f.starts[before.count lineFeed + 1]? with
    | none =>
      rw [Array.getD_eq_getD_getElem?, hget] at hnext
      exact absurd hnext (Nat.succ_ne_zero _).symm
    | some next =>
      rw [Array.getD_eq_getD_getElem?, hget, Option.getD_some] at hnext
      have hle : (1 : UInt32) ≤ next := by
        rw [UInt32.le_iff_toNat_le, hnext, UInt32.toNat_one]
        omega
      rw [UInt32.toNat_sub_of_le _ _ hle, hnext, UInt32.toNat_one, Nat.add_sub_cancel]

/-- The line of an offset up to the offset. -/
lemma slice_lineStart : f.slice (f.lineStart (f.lineAt offset)) offset = left := by
  rw [slice_eq, toNat_lineStart hlength h hoffset, hoffset, h.eq_append]
  simp

/-- The whole line of an offset. -/
lemma line_lineAt : f.line (f.lineAt offset) = left ++ right := by
  have hlines : f.content.toList = before ++ (left ++ right ++ after) := by
    rw [h.eq_append]
    simp
  have hcount : (before ++ left ++ right).length - before.length = (left ++ right).length := by
    simp only [List.length_append]
    omega
  rw [line, slice_eq, toNat_lineStart hlength h hoffset, toNat_lineEnd hlength h hoffset, hlines,
    List.drop_left, hcount, List.take_left]

end Split

end SourceFile

end ZigGolf
