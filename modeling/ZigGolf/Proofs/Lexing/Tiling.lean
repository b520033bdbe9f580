import Mathlib.Algebra.Group.Nat.Defs
import ZigGolf.Proofs.Bytes.Encoding
import ZigGolf.Proofs.Lexing.Gap
import ZigGolf.Proofs.Lexing.Tokens

/-!
# The tokens of a source

The tokens of a source in UTF-8 cover it: each token is the text at its place, they follow one
another, and between them stands nothing but gaps (`Tiles`).  A source that is not in UTF-8 has one
invalid token of one byte.  A lexer gives the tokens of its source one after the other, and then its
end for ever, without a further report (`lex_tiles`).
-/

namespace ZigGolf

variable {file : UInt32} {source : Bytes}

/-! ### Places in a text -/

/-- A token together with the offsets of its first byte and of the byte behind its last one. -/
structure Placement where
  kind : Kind
  text : Bytes
  lo : Nat
  hi : Nat
  deriving DecidableEq

/-- The place of a token that the lexer has found. -/
def Token.placement (t : Token) : Placement :=
  ⟨t.kind, t.lexeme, t.span.lo.toNat, t.span.hi.toNat⟩

/-- The bytes of a text from one offset up to another. -/
def slice (s : Bytes) (lo hi : Nat) : Bytes := (s.drop lo).take (hi - lo)

/-- The slice of a text in the middle. -/
lemma slice_append (a b c : Bytes) : slice (a ++ b ++ c) a.length (a ++ b).length = b := by
  rw [slice, List.append_assoc, List.drop_left, List.length_append, Nat.add_sub_cancel_left,
    List.take_left]

/-- The place of a lexeme in a short text. -/
lemma placement_place (file : UInt32) {offset : Nat} {l : Lexeme}
    (h : offset + l.gap.length + l.text.length < 2 ^ 32) :
    (Lexeme.place file offset l).1.placement =
      ⟨l.kind, l.text, offset + l.gap.length, offset + l.gap.length + l.text.length⟩ := by
  dsimp only [Token.placement, Lexeme.place]
  rw [UInt32.toNat_ofNat', UInt32.toNat_ofNat', Nat.mod_eq_of_lt (by omega),
    Nat.mod_eq_of_lt (by omega)]

/-- The place of the end of a short text. -/
lemma placement_atEnd (file : UInt32) {n : Nat} (h : n < 2 ^ 32) :
    (Token.atEnd file n).placement = ⟨.eof, [], n, n⟩ := by
  dsimp only [Token.placement, Token.atEnd]
  rw [UInt32.toNat_ofNat', Nat.mod_eq_of_lt h]

/-! ### How many tokens there are -/

/-- Every token takes up a byte. -/
lemma length_lexemes_le (s : Bytes) : (lexemes s).length ≤ s.length := by
  induction s using lexemeInduction with
  | gap s hnext =>
    rw [lexemes_of_none hnext]
    exact Nat.zero_le _
  | lexeme s l r hnext ih =>
    have hlt := nextLexeme?_shrinks hnext
    rw [lexemes_of_some hnext, List.length_cons]
    omega

/-- A text has no more tokens than bytes. -/
lemma length_tokensOfText_le (file : UInt32) (s : Bytes) :
    (tokensOfText file s).length ≤ s.length := by
  have hmap := congrArg List.length (map_tokensOfText file s)
  rw [List.length_map, List.length_map] at hmap
  rw [hmap]
  exact length_lexemes_le s

/-! ### Tokens that cover a text -/

/-- The places of tokens that cover a text from an offset on.  In front of each token stands what
may stand there, each token is the text at its place, and the last one is the end of the text. -/
inductive Tiles (source : Bytes) : Nat → List Placement → Prop
  | last {offset : Nat} : offset ≤ source.length → IsGap (slice source offset source.length) [] →
      Tiles source offset [⟨.eof, [], source.length, source.length⟩]
  | cons {offset : Nat} {q : Placement} {qs : List Placement} : q.kind ≠ .eof →
      offset ≤ q.lo → q.lo < q.hi → q.hi ≤ source.length → slice source q.lo q.hi = q.text →
      IsGapBefore q.kind q.text (slice source offset q.lo) (source.drop q.lo) →
      Tiles source q.hi qs → Tiles source offset (q :: qs)

/-- The lexemes of the second part of a text cover that part. -/
lemma tiles_thread_place (file : UInt32) (before s : Bytes)
    (hlength : (before ++ s).length < 2 ^ 32) :
    Tiles (before ++ s) before.length
      ((thread (Lexeme.place file) before.length (lexemes s)).1.map Token.placement ++
        [⟨.eof, [], (before ++ s).length, (before ++ s).length⟩]) := by
  induction s using lexemeInduction generalizing before with
  | gap s hnext =>
    have hslice := slice_append before s []
    rw [List.append_nil] at hslice
    rw [lexemes_of_none hnext]
    refine .last (by simp) ?_
    rw [hslice]
    exact isGap_of_nextLexeme? hnext
  | lexeme s l r hnext ih =>
    have hpos := List.length_pos_iff.2 (nextLexeme?_ne_nil hnext)
    have hgap := isGapBefore_of_nextLexeme? hnext
    obtain rfl := nextLexeme?_append hnext
    have hplace : (Lexeme.place file before.length l).1.placement =
        ⟨l.kind, l.text, (before ++ l.gap).length, (before ++ l.gap ++ l.text).length⟩ := by
      simp only [List.length_append] at hlength ⊢
      exact placement_place file (by omega)
    have hend : (Lexeme.place file before.length l).2 = (before ++ l.gap ++ l.text).length := by
      simp only [List.length_append]
      rfl
    have htext : before ++ (l.gap ++ l.text ++ r) = before ++ l.gap ++ l.text ++ r := by simp
    -- the rest is covered from the end of this token on
    have hrest := ih (before ++ l.gap ++ l.text) (htext ▸ hlength)
    rw [lexemes_of_some hnext, thread_cons, List.map_cons, List.cons_append, hplace, hend, htext]
    refine .cons (kind_ne_eof_of_nextLexeme? hnext) ?_ ?_ ?_ ?_ ?_ hrest
    · simp
    · simp only [List.length_append]
      omega
    · simp
    · exact slice_append (before ++ l.gap) l.text r
    · have hslice := slice_append before l.gap (l.text ++ r)
      have hdrop : (before ++ l.gap ++ (l.text ++ r)).drop (before ++ l.gap).length =
          l.text ++ r := List.drop_left
      dsimp only
      rw [List.append_assoc (before ++ l.gap), hdrop, hslice]
      exact hgap

/-- The one invalid token of a short source that is not in UTF-8 is the byte at its place. -/
lemma exists_map_placement_lex (file : UInt32) (hs : ¬ Utf8.WellFormed source)
    (hlength : source.length < 2 ^ 32) :
    ∃ offset b, source[offset]? = some b ∧
      (lex file source).map Token.placement =
        [⟨.invalid, [b], offset, offset + 1⟩, ⟨.eof, [], source.length, source.length⟩] := by
  obtain ⟨offset, b, hb, hlex⟩ := exists_lex_eq_of_not_wellFormed file hs
  have hlt := (List.getElem?_eq_some_iff.1 hb).1
  have hlo : offset.toUInt32.toNat = offset := by
    rw [Nat.toUInt32, UInt32.toNat_ofNat', Nat.mod_eq_of_lt (by omega)]
  have hhi : (offset.toUInt32 + 1).toNat = offset + 1 := by
    rw [UInt32.toNat_add, hlo, UInt32.toNat_one, Nat.mod_eq_of_lt (by omega)]
  refine ⟨offset, b, hb, ?_⟩
  rw [hlex, List.map_cons, List.map_singleton, placement_atEnd file hlength]
  dsimp only [Token.placement]
  rw [hlo, hhi]

/-- There is at most one token more than there are bytes. -/
lemma length_lex_le (file : UInt32) (source : Bytes) :
    (lex file source).length ≤ source.length + 1 := by
  by_cases hs : Utf8.WellFormed source
  · rw [lex_of_wellFormed hs, List.length_append, List.length_singleton]
    exact Nat.succ_le_succ (length_tokensOfText_le file source)
  · obtain ⟨offset, b, hb, hlex⟩ := exists_lex_eq_of_not_wellFormed file hs
    have hlt := (List.getElem?_eq_some_iff.1 hb).1
    rw [hlex, List.length_cons, List.length_singleton]
    omega

/-- Tokens carry the number of their file. -/
lemma file_of_mem_thread_place (file : UInt32) (offset : Nat) (ls : List Lexeme) {t : Token}
    (ht : t ∈ (thread (Lexeme.place file) offset ls).1) : t.span.file = file := by
  induction ls generalizing offset with
  | nil => simp at ht
  | cons l ls ih =>
    rw [thread_cons] at ht
    rcases List.mem_cons.1 ht with rfl | ht
    · rfl
    · exact ih _ ht

/-- All tokens belong to the file that was given. -/
lemma file_of_mem_lex {t : Token} (ht : t ∈ lex file source) : t.span.file = file := by
  by_cases hs : Utf8.WellFormed source
  · rw [lex_of_wellFormed hs] at ht
    rcases List.mem_append.1 ht with ht | ht
    · exact file_of_mem_thread_place file 0 (lexemes source) ht
    · rw [List.mem_singleton.1 ht]
      rfl
  · obtain ⟨offset, b, -, hlex⟩ := exists_lex_eq_of_not_wellFormed file hs
    rw [hlex] at ht
    simp only [List.mem_cons, List.not_mem_nil, or_false] at ht
    rcases ht with rfl | rfl <;> rfl

/-! ### Reading token by token -/

namespace Lexer

/-- A lexer after some tokens have been read. -/
def advance (lexer : Lexer) : Nat → Lexer
  | 0 => lexer
  | n + 1 => (lexer.advance n).next.2

/-- Going on for several tokens is reading one and going on behind it. -/
lemma advance_succ (lexer : Lexer) (n : Nat) :
    lexer.advance (n + 1) = lexer.next.2.advance n := by
  induction n with
  | zero => rfl
  | succ n ih => rw [advance, ih, advance]

/-- A lexer at its end gives the end, and nothing is changed or recorded. -/
lemma next_of_rest_eq_nil {lexer : Lexer} (hchecked : lexer.checked = true)
    (hrest : lexer.rest = []) : lexer.next = (.atEnd lexer.file lexer.offset, lexer) := by
  rcases lexer with ⟨file, offset, rest, checked, recorded⟩
  obtain rfl : checked = true := hchecked
  obtain rfl : rest = [] := hrest
  exact next_of_none (.inl rfl) nextLexeme?_nil

/-- Behind the end stands the end. -/
lemma next_of_eof {lexer : Lexer} (h : lexer.next.1.kind = .eof) :
    lexer.next.2.next = lexer.next := by
  rcases lexer.clear_or_malformed with hclear | ⟨hchecked, offset, b, hmalformed⟩
  · cases hcut : nextLexeme? lexer.rest with
    | none =>
      rw [next_of_none hclear hcut]
      exact next_of_rest_eq_nil rfl rfl
    | some cut =>
      rw [next_of_some hclear hcut] at h
      exact absurd h (kind_ne_eof_of_nextLexeme? hcut)
  · rw [next_of_malformed hchecked hmalformed] at h
    exact absurd h Kind.noConfusion

/-- The tokens that are read one after the other are those that are read in all. -/
lemma getElem?_readAll {lexer : Lexer} {n : Nat} (h : n < lexer.readAll.1.length) :
    lexer.readAll.1[n]? = some (lexer.advance n).next.1 := by
  induction n generalizing lexer with
  | zero =>
    by_cases hend : lexer.next.1.kind = .eof
    · rw [readAll_of_eof hend]
      rfl
    · rw [readAll_of_ne_eof hend]
      rfl
  | succ n ih =>
    by_cases hend : lexer.next.1.kind = .eof
    · rw [readAll_of_eof hend] at h
      simp at h
    · rw [readAll_of_ne_eof hend] at h ⊢
      rw [advance_succ, List.getElem?_cons_succ]
      exact ih (by simpa using h)

/-- When all tokens have been read there is nothing but the end. -/
lemma advance_of_le {lexer : Lexer} {n : Nat} (h : lexer.readAll.1.length ≤ n) :
    lexer.advance n = lexer.readAll.2 := by
  induction n generalizing lexer with
  | zero =>
    by_cases hend : lexer.next.1.kind = .eof
    · simp [readAll_of_eof hend] at h
    · simp [readAll_of_ne_eof hend] at h
  | succ n ih =>
    rw [advance_succ]
    by_cases hend : lexer.next.1.kind = .eof
    · have hstay := next_of_eof hend
      have hend' : lexer.next.2.next.1.kind = .eof := by rwa [hstay]
      cases n with
      | zero => rw [readAll_of_eof hend]; rfl
      | succ n =>
        rw [ih (by rw [readAll_of_eof hend']; simp), readAll_of_eof hend', readAll_of_eof hend,
          hstay]
    · rw [readAll_of_ne_eof hend] at h ⊢
      exact ih (by simpa using h)

/-- A lexer that has read a whole source stands at its end. -/
lemma next_readAll_ofSource (file : UInt32) (source : Bytes) (log : Option Log) :
    (ofSource file source log).readAll.2.next =
      (.atEnd file source.length, (ofSource file source log).readAll.2) := by
  cases hmalformed : Utf8.malformed? source with
  | none =>
    have hread := readAll_of_clear (ofSource file source log) (.inr hmalformed)
    rw [hread, next_of_rest_eq_nil rfl rfl]
    simp [ofSource]
  | some p =>
    have hread := readAll_of_malformed (ofSource file source log) rfl hmalformed
    rw [hread, next_of_rest_eq_nil rfl List.drop_length]
    simp [ofSource, giveUp, reportMalformed, report, skip]

end Lexer

/-! ### Result -/

/-- The tokens of a source cover it if it is in UTF-8; else there is one invalid token, of one byte.
All of them belong to the given file, and there is at most one token more than there are bytes.  A
lexer of the source, whatever log it keeps, gives them one after the other and then the end of the
source for ever, without a report. -/
theorem lex_tiles (file : UInt32) {source : Bytes} (hlength : source.length < 2 ^ 32) :
    (Utf8.IsEncoding source → Tiles source 0 ((lex file source).map Token.placement)) ∧
      (¬ Utf8.IsEncoding source → ∃ offset b, source[offset]? = some b ∧
        (lex file source).map Token.placement =
          [⟨.invalid, [b], offset, offset + 1⟩, ⟨.eof, [], source.length, source.length⟩]) ∧
      (∀ t ∈ lex file source, t.span.file = file) ∧
      (lex file source).length ≤ source.length + 1 ∧
      (∀ log n, ((Lexer.ofSource file source log).advance n).next.1 =
        (lex file source)[n]?.getD (Token.atEnd file source.length)) ∧
      ∀ log n, (lex file source).length ≤ n →
        ((Lexer.ofSource file source log).advance n).next =
          (Token.atEnd file source.length, (Lexer.ofSource file source log).advance n) := by
  rw [Utf8.isEncoding_iff]
  refine ⟨fun hs => ?_, fun hs => exists_map_placement_lex file hs hlength,
    fun t ht => file_of_mem_lex ht, length_lex_le file source, ?_, ?_⟩
  · rw [lex_of_wellFormed hs, List.map_append, List.map_singleton, placement_atEnd file hlength]
    exact tiles_thread_place file [] source hlength
  · intro log n
    rcases Nat.lt_or_ge n (lex file source).length with hlt | hge
    · rw [← readAll_ofSource file source log] at hlt ⊢
      rw [Lexer.getElem?_readAll hlt, Option.getD_some]
    · rw [List.getElem?_eq_none hge, Option.getD_none]
      rw [← readAll_ofSource file source log] at hge
      rw [Lexer.advance_of_le hge, Lexer.next_readAll_ofSource]
  · intro log n hle
    rw [← readAll_ofSource file source log] at hle
    rw [Lexer.advance_of_le hle, Lexer.next_readAll_ofSource]

/-- Of the quoted identifier that is not closed the sigil is left over, behind a comment. -/
theorem lex_tiles_of_sigil :
    Utf8.IsEncoding (ascii "x //y\n @\"z") ∧
      Tiles (ascii "x //y\n @\"z") 0
        [⟨.ident, ascii "x", 0, 1⟩, ⟨.invalid, ascii "\"z", 8, 10⟩, ⟨.eof, [], 10, 10⟩] := by
  have hencoding : Utf8.IsEncoding (ascii "x //y\n @\"z") := ⟨"x //y\n @\"z".toList, by decide⟩
  have hlex : (lex 0 (ascii "x //y\n @\"z")).map Token.placement =
      [⟨.ident, ascii "x", 0, 1⟩, ⟨.invalid, ascii "\"z", 8, 10⟩, ⟨.eof, [], 10, 10⟩] := by
    decide +kernel
  rw [← hlex]
  exact ⟨hencoding, (lex_tiles 0 (by decide)).1 hencoding⟩

end ZigGolf
