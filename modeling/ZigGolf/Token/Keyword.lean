import ZigGolf.Bytes.Basic

/-!
# Keywords

The reserved words of the grammar of Zig.  Minification treats all of them alike, so a keyword is
no more than a spelling from a list.  The list is in alphabetical order, which is also the order of
the numbers of keywords.
-/

namespace ZigGolf

/-- The spellings of the keywords. -/
def keywordSpellings : List Bytes :=
  ["addrspace", "align", "allowzero", "and", "anyframe", "anytype", "asm", "async", "await",
    "break", "callconv", "catch", "comptime", "const", "continue", "defer", "else", "enum",
    "errdefer", "error", "export", "extern", "fn", "for", "if", "inline", "linksection",
    "noalias", "noinline", "nosuspend", "opaque", "or", "orelse", "packed", "pub", "resume",
    "return", "struct", "suspend", "switch", "test", "threadlocal", "try", "union",
    "unreachable", "usingnamespace", "var", "volatile", "while"].map ascii

/-- A keyword. -/
structure Keyword where
  spelling : Bytes
  spelling_mem : spelling ∈ keywordSpellings
  deriving DecidableEq

namespace Keyword

/-- Every keyword, in the order of their numbers. -/
def all : List Keyword := keywordSpellings.attach.map fun s => ⟨s.1, s.2⟩

/-- The keyword with a given spelling. -/
def ofSpelling? (s : Bytes) : Option Keyword :=
  if h : s ∈ keywordSpellings then some ⟨s, h⟩ else none

theorem mem_all (k : Keyword) : k ∈ all :=
  List.mem_map.2 ⟨⟨k.spelling, k.spelling_mem⟩, List.mem_attach .., rfl⟩

/-- A text reads as a keyword if and only if it is the spelling of that keyword. -/
theorem ofSpelling?_eq_some_iff {s : Bytes} {k : Keyword} :
    ofSpelling? s = some k ↔ s = k.spelling := by
  constructor
  · intro h
    unfold ofSpelling? at h
    split at h
    · rw [← Option.some.inj h]
    · simp at h
  · rintro rfl
    exact dif_pos k.spelling_mem

/-- A text reads as no keyword if and only if it is not in the list. -/
theorem ofSpelling?_eq_none_iff {s : Bytes} : ofSpelling? s = none ↔ s ∉ keywordSpellings := by
  unfold ofSpelling?
  split
  · next h => simp [h]
  · next h => simp [h]

end Keyword

end ZigGolf
