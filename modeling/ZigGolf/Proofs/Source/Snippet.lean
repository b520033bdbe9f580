import ZigGolf.Proofs.Source.Position

/-!
# Snippets

A snippet shows a window of the lines of its file: the line in which a span starts, and the lines
around it.  Said without the table of lines, these are lines of the text split at its line feeds
(`SourceFile.lines_snippet`), and the mark covers what the span has of the first of its lines
(`SourceFile.exists_isMarked_of_lineSplit`).

All of this is computed with differences of words and slices of bytes, and none of them is checked.
`SourceFile.snippet?` makes the same computation with every check made.  No check ever fails,
whatever the span and however many lines are asked for (`SourceFile.snippet?_eq_some`).
-/

namespace ZigGolf

/-! ### The lines of a text -/

section Lines

variable {s before left right after : Bytes}

/-- There is one more line than there are line feeds. -/
lemma length_splitOn_lineFeed (s : Bytes) :
    (s.splitOn lineFeed).length = s.count lineFeed + 1 := by
  induction s with
  | nil => rfl
  | cons b s ih =>
    rw [List.splitOn_cons_eq_if_modifyHead, List.count_cons]
    split
    · rw [List.length_cons, ih]
    · rw [List.length_modifyHead, ih, Nat.add_zero]

/-- A line is numbered by the line feeds before it. -/
lemma LineSplit.getElem?_splitOn (h : LineSplit s before left right after) :
    (s.splitOn lineFeed)[before.count lineFeed]? = some (left ++ right) := by
  have hmem : lineFeed ∉ left ++ right := by simp [h.notMem_left, h.notMem_right]
  -- the line is the first one of what is left behind the last line feed before it
  have hhead : ((left ++ right ++ after).splitOn lineFeed)[0]? = some (left ++ right) := by
    cases after with
    | nil => rw [List.append_nil, List.splitOn_eq_singleton hmem]; rfl
    | cons b after =>
      obtain rfl := h.eq_of_mem_head? b rfl
      rw [List.splitOn_append_cons_self_of_not_mem hmem]
      rfl
  rcases List.eq_nil_or_concat before with rfl | ⟨front, b, rfl⟩
  · rw [h.eq_append, List.nil_append]
    exact hhead
  · rw [List.concat_eq_append] at h ⊢
    obtain rfl := h.eq_of_mem_getLast? b (by simp)
    have hsplit : s = front ++ lineFeed :: (left ++ right ++ after) := by
      rw [h.eq_append]
      simp
    have hcount : (front ++ [lineFeed]).count lineFeed = (front.splitOn lineFeed).length := by
      rw [length_splitOn_lineFeed, List.count_append, List.count_singleton_self]
    rw [hsplit, List.splitOn_append_cons_self, hcount, List.getElem?_append_right (Nat.le_refl _),
      Nat.sub_self]
    exact hhead

/-- Every line stands somewhere. -/
lemma exists_lineSplit_of_le_count {i : Nat} (hi : i ≤ s.count lineFeed) :
    ∃ before left right after, LineSplit s before left right after ∧
      before.count lineFeed = i := by
  have hcut : ∃ a c, s = a ++ c ∧ a.count lineFeed = i := by
    induction s generalizing i with
    | nil => exact ⟨[], [], rfl, (Nat.le_zero.1 hi).symm⟩
    | cons b s ih =>
      cases i with
      | zero => exact ⟨[], b :: s, rfl, rfl⟩
      | succ i =>
        by_cases hb : b = lineFeed
        · subst hb
          rw [List.count_cons_self] at hi
          obtain ⟨a, c, rfl, ha⟩ := ih (Nat.le_of_succ_le_succ hi)
          exact ⟨lineFeed :: a, c, rfl, by rw [List.count_cons_self, ha]⟩
        · rw [List.count_cons_of_ne hb] at hi
          obtain ⟨a, c, rfl, ha⟩ := ih hi
          exact ⟨b :: a, c, rfl, by rw [List.count_cons_of_ne hb, ha]⟩
  obtain ⟨a, c, rfl, ha⟩ := hcut
  obtain ⟨before, left, right, after, rfl, hsplit⟩ := exists_lineSplit a c
  rw [List.count_append, List.count_eq_zero.2 hsplit.notMem_left, Nat.add_zero] at ha
  exact ⟨before, left, right, after, hsplit, ha⟩

end Lines

/-! ### Checked operations -/

/-- The difference of two words, if it does not fall below zero. -/
def sub? (a b : UInt32) : Option UInt32 := if b ≤ a then some (a - b) else none

/-- Subtraction succeeds where it does not wrap around. -/
lemma sub?_of_le {a b : UInt32} (h : b ≤ a) : sub? a b = some (a - b) := if_pos h

/-- If every element has a result, so has the list. -/
lemma mapM_eq_some_map {α β : Type} {l : List α} {g : α → Option β} {h : α → β}
    (hsome : ∀ a ∈ l, g a = some (h a)) : l.mapM g = some (l.map h) := by
  induction l with
  | nil => rfl
  | cons a l ih =>
    rw [List.mapM_cons, hsome a List.mem_cons_self,
      ih fun b hb => hsome b (List.mem_cons_of_mem a hb)]
    rfl

namespace SourceFile

/-- The bytes from one offset to another, if the offsets are in order and within the file. -/
def slice? (f : SourceFile) (lo hi : UInt32) : Option Bytes :=
  if lo ≤ hi ∧ hi.toNat ≤ f.content.size then some (f.slice lo hi) else none

/-- The offset at which a line ends, with the line feed before the next line left out. -/
def lineEnd? (f : SourceFile) (line : UInt32) : Option UInt32 :=
  match f.starts[line.toNat + 1]? with
  | some next => sub? next 1
  | none => some f.size

/-- The bytes of a line, if the table has it and it lies within the file. -/
def line? (f : SourceFile) (line : UInt32) : Option Bytes := do
  let start ← f.starts[line.toNat]?
  let stop ← f.lineEnd? line
  f.slice? start stop

/-- The snippet for a span, if no difference falls below zero, every line is looked up within the
table, and every slice is taken within the file. -/
def snippet? (f : SourceFile) (lo hi context : UInt32) : Option Snippet := do
  let hi := min (max hi lo) f.size
  let lo := min lo f.size
  let caret := f.lineAt lo
  let first ← (if context < caret then sub? caret context else some 0)
  let last := min (caret + context) (← sub? f.lineCount 1)
  let lines ← (List.range' first.toNat (last.toNat + 1 - first.toNat)).mapM fun i =>
    f.line? i.toUInt32
  let start ← f.starts[caret.toNat]?
  let stop ← f.lineEnd? caret
  let markLine ← f.slice? start stop
  let before ← sub? lo start
  let marked ← sub? (min hi stop) start
  let length := displayWidth (marked.toNat - before.toNat) (markLine.drop before.toNat)
  return {
    firstLine := first + 1
    lines := lines
    markLine := ← sub? caret first
    markBefore := displayWidth before.toNat markLine
    markLength := if length = 0 then 1 else length }

/-! ### The lines of a file -/

/-- The lines of a file: its text split at the line feeds. -/
def lines (f : SourceFile) : List Bytes := f.content.toList.splitOn lineFeed

variable {f : SourceFile} {before left right after : Bytes}

/-- A file has as many lines as its table. -/
lemma length_lines (hlength : f.content.size < 2 ^ 32) : f.lines.length = f.starts.size := by
  rw [lines, length_splitOn_lineFeed, (isLineTable_starts hlength).size_eq]

/-- The number of lines fits in a word. -/
lemma length_lines_lt (hlength : f.content.size < 2 ^ 32 - 1) : f.lines.length < 2 ^ 32 := by
  have hcount : f.content.toList.count lineFeed ≤ f.content.size := List.count_le_length
  rw [lines, length_splitOn_lineFeed]
  omega

/-- Every file has a line. -/
lemma length_lines_pos (f : SourceFile) : 0 < f.lines.length := by
  rw [lines, length_splitOn_lineFeed]
  exact Nat.succ_pos _

/-- The table has the start of every line. -/
lemma getElem?_starts {i : UInt32} (hi : i.toNat < f.starts.size) :
    f.starts[i.toNat]? = some (f.lineStart i) := by
  rw [lineStart, Array.getD_eq_getD_getElem?, Array.getElem?_eq_getElem hi, Option.getD_some]

section Split

variable (hlength : f.content.size < 2 ^ 32)
  (h : LineSplit f.content.toList before left right after)
include hlength h

/-- A line is found at every offset in it. -/
lemma exists_lineAt_eq :
    ∃ offset : UInt32, offset.toNat = (before ++ left).length ∧
      f.lineAt offset = (before.count lineFeed).toUInt32 := by
  have hle : (before ++ left).length ≤ f.content.size := h.length_le
  have hoffset : (UInt32.ofNat (before ++ left).length).toNat = (before ++ left).length := by
    rw [UInt32.toNat_ofNat', Nat.mod_eq_of_lt (by omega)]
  refine ⟨_, hoffset, ?_⟩
  rw [← toNat_lineAt hlength h hoffset, Nat.toUInt32, UInt32.ofNat_toNat]

/-- A line starts at its first byte. -/
lemma toNat_lineStart_count :
    (f.lineStart (before.count lineFeed).toUInt32).toNat = before.length := by
  obtain ⟨offset, hoffset, hline⟩ := exists_lineAt_eq hlength h
  rw [← hline, toNat_lineStart hlength h hoffset]

/-- A line ends behind its last byte. -/
lemma toNat_lineEnd_count :
    (f.lineEnd (before.count lineFeed).toUInt32).toNat = (before ++ left ++ right).length := by
  obtain ⟨offset, hoffset, hline⟩ := exists_lineAt_eq hlength h
  rw [← hline, toNat_lineEnd hlength h hoffset]

/-- The line that a place splits has the number of the line feeds in front of the place. -/
lemma line_count : f.line (before.count lineFeed).toUInt32 = left ++ right := by
  obtain ⟨offset, hoffset, hline⟩ := exists_lineAt_eq hlength h
  rw [← hline, line_lineAt hlength h hoffset]

end Split

/-- The end of a line is found without a difference that falls below zero. -/
lemma lineEnd?_eq_some (hlength : f.content.size < 2 ^ 32) (i : UInt32) :
    f.lineEnd? i = some (f.lineEnd i) := by
  unfold lineEnd? lineEnd
  cases hnext : f.starts[i.toNat + 1]? with
  | none => rfl
  | some next =>
    -- no line but the first one starts at the start of the text
    have hsize : i.toNat + 1 < f.starts.size := (Array.getElem?_eq_some_iff.1 hnext).1
    have hpos : ¬(f.starts.getD (i.toNat + 1) 0).toNat ≤ 0 := by
      rw [(isLineTable_starts hlength).le_iff hsize (Nat.zero_le _), List.take_zero,
        List.count_nil]
      omega
    rw [Array.getD_eq_getD_getElem?, hnext, Option.getD_some] at hpos
    have hle : (1 : UInt32) ≤ next := by
      rw [UInt32.le_iff_toNat_le, UInt32.toNat_one]
      omega
    exact sub?_of_le hle

section Line

variable (hlength : f.content.size < 2 ^ 32 - 1) {i : Nat} (hi : i < f.lines.length)
include hlength hi

/-- Every line lies within the file. -/
lemma lineStart_le_lineEnd :
    f.lineStart i.toUInt32 ≤ f.lineEnd i.toUInt32 ∧
      (f.lineEnd i.toUInt32).toNat ≤ f.content.size := by
  have hword := Nat.lt_of_lt_pred hlength
  rw [lines, length_splitOn_lineFeed] at hi
  obtain ⟨before, left, right, after, hsplit, rfl⟩ :=
    exists_lineSplit_of_le_count (Nat.le_of_lt_succ hi)
  have hsize : (before ++ left ++ right).length ≤ f.content.size := by
    rw [← Array.length_toList, hsplit.eq_append]
    simp
  rw [UInt32.le_iff_toNat_le, toNat_lineStart_count hword hsplit,
    toNat_lineEnd_count hword hsplit]
  exact ⟨by simp, hsize⟩

/-- Every line is read as it stands between the line feeds. -/
lemma getElem?_lines : f.lines[i]? = some (f.line i.toUInt32) := by
  rw [lines, length_splitOn_lineFeed] at hi
  obtain ⟨before, left, right, after, hsplit, rfl⟩ :=
    exists_lineSplit_of_le_count (Nat.le_of_lt_succ hi)
  rw [lines, hsplit.getElem?_splitOn, line_count (Nat.lt_of_lt_pred hlength) hsplit]

/-- Every line of a file can be shown. -/
lemma line?_eq_some : f.line? i.toUInt32 = some (f.line i.toUInt32) := by
  have hword := Nat.lt_of_lt_pred hlength
  have hcount := length_lines_lt hlength
  have hstart : i.toUInt32.toNat < f.starts.size := by
    rw [Nat.toUInt32, UInt32.toNat_ofNat', Nat.mod_eq_of_lt (by omega), ← length_lines hword]
    exact hi
  unfold line?
  rw [getElem?_starts hstart, lineEnd?_eq_some hword]
  exact if_pos (lineStart_le_lineEnd hlength hi)

end Line

/-! ### The window -/

/-- The line in which a span starts is one of the lines of the file. -/
lemma count_upTo_lt (f : SourceFile) (lo : UInt32) :
    (f.upTo lo).count lineFeed < f.lines.length := by
  rw [lines, length_splitOn_lineFeed]
  exact Nat.lt_succ_of_le (count_take_le _ _)

section Window

variable (hlength : f.content.size < 2 ^ 32 - 1) (lo hi context : UInt32)
include hlength

/-- The line of a place is numbered by the line feeds in front of it. -/
lemma toNat_lineAt_min : (f.lineAt (min lo f.size)).toNat = (f.upTo lo).count lineFeed := by
  have hlt := f.count_upTo_lt lo
  have hword := length_lines_lt hlength
  rw [lineAt, lastAtMost_eq_count hlength, Nat.toUInt32, UInt32.toNat_ofNat',
    Nat.mod_eq_of_lt (by omega)]

/-- The first line shown. -/
lemma toNat_first :
    (if context < f.lineAt (min lo f.size) then f.lineAt (min lo f.size) - context
      else 0).toNat = (f.upTo lo).count lineFeed - context.toNat := by
  have hcaret := toNat_lineAt_min hlength lo
  split
  · next hlt =>
    rw [UInt32.toNat_sub_of_le _ _ (UInt32.le_of_lt hlt), hcaret]
  · next hge =>
    rw [UInt32.lt_iff_toNat_lt, hcaret] at hge
    rw [UInt32.toNat_zero]
    omega

/-- The number of lines does not wrap around. -/
lemma toNat_lineCount : f.lineCount.toNat = f.lines.length := by
  have hword := length_lines_lt hlength
  rw [length_lines (Nat.lt_of_lt_pred hlength)] at hword ⊢
  rw [lineCount, Nat.toUInt32, UInt32.toNat_ofNat', Nat.mod_eq_of_lt hword]

/-- The last line shown.  The sum may not fit in a word. -/
lemma toNat_last :
    (min (f.lineAt (min lo f.size) + context) (f.lineCount - 1)).toNat + 1 =
      min (((f.upTo lo).count lineFeed + context.toNat) % 2 ^ 32 + 1) f.lines.length := by
  have hpos := f.length_lines_pos
  have hcount := toNat_lineCount hlength
  have hle : (1 : UInt32) ≤ f.lineCount := by
    rw [UInt32.le_iff_toNat_le, UInt32.toNat_one]
    omega
  rw [UInt32.toNat_min, UInt32.toNat_add, toNat_lineAt_min hlength,
    UInt32.toNat_sub_of_le _ _ hle, hcount, UInt32.toNat_one]
  omega

/-- The lines shown are a window of the lines of the file. -/
lemma lines_snippet :
    (f.snippet lo hi context).lines =
      (f.lines.take (((f.upTo lo).count lineFeed + context.toNat) % 2 ^ 32 + 1)).drop
        ((f.upTo lo).count lineFeed - context.toNat) := by
  have hlines : f.lines = (List.range f.lines.length).map fun i => f.line i.toUInt32 := by
    refine List.ext_getElem? fun i => ?_
    by_cases hi : i < f.lines.length
    · rw [getElem?_lines hlength hi, List.getElem?_map, List.getElem?_range hi, Option.map_some]
    · rw [List.getElem?_eq_none (Nat.le_of_not_lt hi), List.getElem?_eq_none]
      simpa using hi
  have hlast := toNat_last hlength lo context
  have hfirst := toNat_first hlength lo context
  rw [hlines, ← List.map_take, ← List.map_drop, List.take_range, ← hlast, List.range_eq_range',
    List.drop_range', ← hfirst, Nat.mul_one, Nat.zero_add]
  rfl

/-- The first line that is shown stands as many lines above the mark as asked for, or is the first
of all. -/
lemma toNat_firstLine_snippet :
    (f.snippet lo hi context).firstLine.toNat =
      (f.upTo lo).count lineFeed - context.toNat + 1 := by
  have hfirst := toNat_first hlength lo context
  have hlt := f.count_upTo_lt lo
  have hword := length_lines_lt hlength
  rw [snippet]
  dsimp only
  rw [UInt32.toNat_add, hfirst, UInt32.toNat_one, Nat.mod_eq_of_lt (by omega)]

/-- The mark is put into the line in which the span starts. -/
lemma toNat_markLine_snippet :
    (f.snippet lo hi context).markLine.toNat =
      (f.upTo lo).count lineFeed - ((f.upTo lo).count lineFeed - context.toNat) := by
  have hfirst := toNat_first hlength lo context
  have hcaret := toNat_lineAt_min hlength lo
  rw [snippet]
  dsimp only
  rw [UInt32.toNat_sub_of_le _ _ (by rw [UInt32.le_iff_toNat_le]; omega), hfirst, hcaret]

end Window

/-! ### The mark -/

/-- What is marked in a snippet: the bytes from the start of the span on, up to the end of the span
or of the line, whichever comes first.  Both ends of the span mean the end of the file if they lie
behind it, and the span ends nowhere before its start. -/
structure IsMarked (f : SourceFile) (lo hi : UInt32) (s : Snippet)
    (before left marked right after : Bytes) : Prop where
  lineSplit : LineSplit f.content.toList before left (marked ++ right) after
  length_start : (before ++ left).length = min lo.toNat f.content.size
  length_stop : (before ++ left ++ marked).length =
    min (max lo hi).toNat (before ++ left ++ marked ++ right).length
  markBefore_eq : s.markBefore = displayWidth left.length (left ++ marked ++ right)
  markLength_eq : s.markLength = max 1 (displayWidth marked.length (marked ++ right))

/-- The line in which a span starts, taken apart at the start of the span. -/
lemma exists_lineSplit_upTo (hlength : f.content.size < 2 ^ 32 - 1) (lo : UInt32) :
    ∃ before left right after, LineSplit f.content.toList before left right after ∧
      (min lo f.size).toNat = (before ++ left).length ∧
      before.count lineFeed = (f.upTo lo).count lineFeed := by
  obtain ⟨rest, hrest⟩ : ∃ rest, f.content.toList = f.upTo lo ++ rest :=
    ⟨_, (List.take_append_drop _ _).symm⟩
  obtain ⟨before, left, right, after, hupTo, hsplit⟩ := exists_lineSplit (f.upTo lo) rest
  rw [← hrest] at hsplit
  refine ⟨before, left, right, after, hsplit, ?_, ?_⟩
  · rw [← length_upTo hlength, hupTo]
  · rw [hupTo, List.count_append, List.count_eq_zero.2 hsplit.notMem_left, Nat.add_zero]

/-- The mark ends nowhere before it starts. -/
lemma start_le_stop (hlength : f.content.size < 2 ^ 32) {lo : UInt32} (hi : UInt32)
    (hoffset : (min lo f.size).toNat = (before ++ left).length) (right : Bytes) :
    (before ++ left).length ≤ min (max lo hi).toNat (before ++ left ++ right).length := by
  have hlo := toNat_min_size hlength lo
  have hline : (before ++ left).length ≤ (before ++ left ++ right).length := by simp
  rw [UInt32.toNat_max]
  omega

/-- A mark has at least one column. -/
lemma markLength_eq_max (w : UInt32) : (if w = 0 then 1 else w) = max 1 w := by
  rw [UInt32.max_def]
  split
  · next h =>
    subst h
    rfl
  · next h =>
    have hle : 1 ≤ w := by
      rw [UInt32.le_iff_toNat_le, UInt32.toNat_one]
      exact Nat.one_le_iff_ne_zero.2 fun hzero => h (UInt32.toNat_inj.1 hzero)
    rw [if_pos hle]

section MarkSplit

variable (hlength : f.content.size < 2 ^ 32) {lo : UInt32} (hi : UInt32)
  (h : LineSplit f.content.toList before left right after)
  (hoffset : (min lo f.size).toNat = (before ++ left).length)
include hlength h hoffset

/-- A span starts within its line. -/
lemma lineStart_le_start : f.lineStart (f.lineAt (min lo f.size)) ≤ min lo f.size := by
  rw [UInt32.le_iff_toNat_le, toNat_lineStart hlength h hoffset, hoffset, List.length_append]
  exact Nat.le_add_right _ _

/-- The end of the mark. -/
lemma toNat_stop :
    (min (min (max hi lo) f.size) (f.lineEnd (f.lineAt (min lo f.size)))).toNat =
      min (max lo hi).toNat (before ++ left ++ right).length := by
  have hsize : (before ++ left ++ right).length ≤ f.content.size := by
    rw [← Array.length_toList, h.eq_append]
    simp
  rw [UInt32.toNat_min, UInt32.toNat_min, toNat_size hlength, toNat_lineEnd hlength h hoffset,
    UInt32.toNat_max, UInt32.toNat_max]
  omega

/-- The mark does not end in front of its line. -/
lemma lineStart_le_stop :
    f.lineStart (f.lineAt (min lo f.size)) ≤
      min (min (max hi lo) f.size) (f.lineEnd (f.lineAt (min lo f.size))) := by
  have hle := start_le_stop hlength hi hoffset right
  rw [List.length_append] at hle
  rw [UInt32.le_iff_toNat_le, toNat_stop hlength hi h hoffset, toNat_lineStart hlength h hoffset]
  omega

/-- What is marked is part of the line in which the span starts. -/
lemma exists_isMarked_of_lineSplit (context : UInt32) :
    ∃ marked rest, right = marked ++ rest ∧
      f.IsMarked lo hi (f.snippet lo hi context) before left marked rest after := by
  have hstart := toNat_lineStart hlength h hoffset
  have hlo := toNat_min_size hlength lo
  have hle := start_le_stop hlength hi hoffset right
  have hline : (before ++ left ++ right).length = (before ++ left).length + right.length :=
    List.length_append
  -- the words of which the mark is computed
  have hbefore : (min lo f.size - f.lineStart (f.lineAt (min lo f.size))).toNat = left.length := by
    rw [UInt32.toNat_sub_of_le _ _ (lineStart_le_start hlength h hoffset), hstart, hoffset,
      List.length_append, Nat.add_sub_cancel_left]
  have hmarked : (min (min (max hi lo) f.size) (f.lineEnd (f.lineAt (min lo f.size))) -
      f.lineStart (f.lineAt (min lo f.size))).toNat - left.length =
        min (max lo hi).toNat (before ++ left ++ right).length - (before ++ left).length := by
    have hsum : (before ++ left).length = before.length + left.length := List.length_append
    rw [UInt32.toNat_sub_of_le _ _ (lineStart_le_stop hlength hi h hoffset), hstart,
      toNat_stop hlength hi h hoffset, Nat.sub_sub, hsum]
  obtain ⟨n, hn⟩ : ∃ n, n = min (max lo hi).toNat (before ++ left ++ right).length -
    (before ++ left).length := ⟨_, rfl⟩
  have hcount : (right.take n).length = n := by
    rw [List.length_take]
    omega
  have hright : right.take n ++ right.drop n = right := List.take_append_drop n right
  refine ⟨right.take n, right.drop n, hright.symm, ?_, by omega, ?_, ?_, ?_⟩
  · rwa [hright]
  · rw [List.append_assoc (before ++ left), hright, List.length_append, hcount]
    omega
  · rw [snippet]
    dsimp only
    rw [hbefore, line_lineAt hlength h hoffset, List.append_assoc, hright]
  · rw [snippet]
    dsimp only
    rw [hbefore, hmarked, ← hn, line_lineAt hlength h hoffset, List.drop_left, hright, hcount,
      markLength_eq_max]

end MarkSplit

/-! ### Checks -/

/-- No check fails, whatever the span and however many lines are asked for. -/
lemma snippet?_eq_some (hlength : f.content.size < 2 ^ 32 - 1) (lo hi context : UInt32) :
    f.snippet? lo hi context = some (f.snippet lo hi context) := by
  have hword := Nat.lt_of_lt_pred hlength
  obtain ⟨before, left, right, after, hsplit, hoffset, -⟩ := exists_lineSplit_upTo hlength lo
  have hbefore := lineStart_le_start hword hsplit hoffset
  have hmarked := lineStart_le_stop hword hi hsplit hoffset
  have hcaret := toNat_lineAt_min hlength lo
  have hfirst := toNat_first hlength lo context
  have hlast := toNat_last hlength lo context
  have hlt := f.count_upTo_lt lo
  unfold snippet? snippet
  dsimp only
  generalize f.lineAt (min lo f.size) = caret at *
  have hsubFirst : (if context < caret then sub? caret context else some 0) =
      some (if context < caret then caret - context else 0) := by
    split
    · next h => exact sub?_of_le (UInt32.le_of_lt h)
    · rfl
  generalize (if context < caret then caret - context else 0) = first at *
  have hcount : 1 ≤ f.lineCount := by
    rw [UInt32.le_iff_toNat_le, toNat_lineCount hlength, UInt32.toNat_one]
    exact f.length_lines_pos
  have hstart : f.starts[caret.toNat]? = some (f.lineStart caret) := by
    refine getElem?_starts ?_
    rw [hcaret, ← length_lines hword]
    exact hlt
  have hslice : f.slice? (f.lineStart caret) (f.lineEnd caret) = some (f.line caret) := by
    have hrange := lineStart_le_lineEnd hlength hlt
    rw [← hcaret, Nat.toUInt32, UInt32.ofNat_toNat] at hrange
    exact if_pos hrange
  have hmarkLine : first ≤ caret := by
    rw [UInt32.le_iff_toNat_le]
    omega
  have hlines : ∀ i ∈ List.range' first.toNat
      ((min (caret + context) (f.lineCount - 1)).toNat + 1 - first.toNat),
        f.line? i.toUInt32 = some (f.line i.toUInt32) := by
    intro i hi
    rw [List.mem_range'_1] at hi
    exact line?_eq_some hlength (by omega)
  simp only [hsubFirst, sub?_of_le hcount, mapM_eq_some_map hlines, hstart, lineEnd?_eq_some hword,
    hslice, sub?_of_le hbefore, sub?_of_le hmarked, sub?_of_le hmarkLine, Option.bind_eq_bind,
    Option.bind_some]
  rfl

end SourceFile

/-! ### Result -/

/-- The snippet for any span in a file that is known to a registry.  No difference falls below zero
and no slice leaves the file on the way to it.  The lines shown are lines of the file, and each is
the one that its number says; the marked one is the line that holds the start of the span, and what
is marked of it is part of it and takes at least one column. -/
theorem snippet_lines_mark {registry : Registry} {span : Span} {f : SourceFile}
    (hfile : registry.file? span.file = some f) (hlength : f.content.size < 2 ^ 32 - 1)
    (context : UInt32) :
    let s := registry.snippet span context
    let caret := (f.upTo span.lo).count lineFeed
    f.snippet? span.lo span.hi context = some s ∧
      s.lines = (f.lines.take ((caret + context.toNat) % 2 ^ 32 + 1)).drop
        (caret - context.toNat) ∧
      (∀ k < s.lines.length, s.lines[k]? = f.lines[s.firstLine.toNat + k - 1]?) ∧
      s.firstLine.toNat + s.markLine.toNat = caret + 1 ∧
      1 ≤ s.markLength ∧
      ∃ before left marked right after,
        f.IsMarked span.lo span.hi s before left marked right after ∧
          f.lines[caret]? = some (left ++ marked ++ right) := by
  intro s caret
  have hs : s = f.snippet span.lo span.hi context := by
    simp only [s, Registry.snippet, hfile]
  have hfirst := SourceFile.toNat_firstLine_snippet hlength span.lo span.hi context
  have hmark := SourceFile.toNat_markLine_snippet hlength span.lo span.hi context
  have hlines := SourceFile.lines_snippet hlength span.lo span.hi context
  obtain ⟨before, left, right, after, hsplit, hoffset, hcaret⟩ :=
    SourceFile.exists_lineSplit_upTo hlength span.lo
  obtain ⟨marked, rest, rfl, hmarked⟩ := SourceFile.exists_isMarked_of_lineSplit
    (Nat.lt_of_lt_pred hlength) span.hi hsplit hoffset context
  rw [hs]
  refine ⟨SourceFile.snippet?_eq_some hlength _ _ _, hlines, fun k hk => ?_, by omega, ?_,
    before, left, marked, rest, after, hmarked, ?_⟩
  · rw [hlines, List.length_drop, List.length_take] at hk
    have hnumber : caret - context.toNat + 1 + k - 1 = caret - context.toNat + k := by omega
    rw [hlines, hfirst, hnumber, List.getElem?_drop, List.getElem?_take_of_lt (by omega)]
  · rw [hmarked.markLength_eq, UInt32.le_iff_toNat_le, UInt32.toNat_max]
    exact Nat.le_max_left _ _
  · have hline := hsplit.getElem?_splitOn
    rw [hcaret, ← List.append_assoc] at hline
    exact hline

/-- A span that starts behind the end of its file and ends before it starts, with so many lines
asked for that their number does not fit in a word together with that of the empty last line. -/
theorem snippet_lines_mark_of_reversed :
    let registry : Registry := (({} : Registry).add (ascii "x.zig") (ascii "ab\ncd\n")).2
    let s := registry.snippet ⟨0, 0xFFFFFFFF, 3⟩ 0xFFFFFFFF
    s.lines = [ascii "ab", ascii "cd"] ∧ s.firstLine.toNat + s.markLine.toNat = 3 ∧
      1 ≤ s.markLength := by
  intro registry s
  obtain ⟨-, hlines, -, hmark, hlength, -⟩ := @snippet_lines_mark registry ⟨0, 0xFFFFFFFF, 3⟩
    (.ofBytes (ascii "x.zig") (ascii "ab\ncd\n")) rfl (by decide) 0xFFFFFFFF
  exact ⟨hlines.trans (by decide), hmark, hlength⟩

end ZigGolf
