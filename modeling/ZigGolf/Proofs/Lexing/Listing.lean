import Mathlib.Algebra.GroupWithZero.Nat
import ZigGolf.Proofs.Lexing.Alone
import ZigGolf.Proofs.Diagnostic.Message

/-!
# Listings of tokens

A listing shows the bytes of a token as they are, apart from a line feed at their end.  It has one
line for each token because no line feed stands anywhere else in a token: only a line of a multiline
string has one, at its end (`lineFeed_of_mem_lex`).  This is not asked of every scanner anew.  A
token, valid or not, is one lexeme by itself, and what stands in front of its first line feed is
read as if the text ended there; so nothing can stand behind that line feed.

The lines of a listing are thus its heading and what it says about each token (`listing_lex`).
-/

namespace ZigGolf

variable {a s t r : Bytes} {k : Kind} {l : Lexeme}

/-! ### Line feeds in tokens -/

/-- A line of a multiline string that lacks its line feed takes the one behind it. -/
lemma nextLexeme?_append_lineFeed_of_line (h : nextLexeme? a = some (l, s))
    (hk : l.kind = .multilineStringLine) (ha : lineFeed ∉ a) (r : Bytes) :
    nextLexeme? (a ++ lineFeed :: r) =
      some (⟨l.gap, .multilineStringLine, l.text ++ [lineFeed]⟩, r) := by
  have hreads := reads_of_nextLexeme? h (by simp [hk])
  have hgap := (isGapBefore_of_nextLexeme? h).isGap (by simp [hk])
  have happend := nextLexeme?_append h
  rw [hk] at hreads
  obtain ⟨line, hline, htext | ⟨htext, hs⟩⟩ := hreads.multilineStringLine_cases
  · exact absurd (by rw [← happend, htext]; simp) ha
  · rw [htext] at hgap
    have hsplit : a ++ lineFeed :: r =
        l.gap ++ (backslash :: backslash :: (line ++ [lineFeed]) ++ r) := by
      rw [← happend, htext, hs]
      simp
    rw [hsplit, (hgap.of_ne_lineFeed (by decide) _).nextLexeme?_append,
      (Reads.line hline).nextLexeme?_eq, htext]
    simp

/-- A text that is one token by itself has a line feed only as a line of a multiline string, and
there at its end. -/
lemma exists_eq_append_lineFeed (ht : Utf8.WellFormed t)
    (h : nextLexeme? t = some (⟨[], k, t⟩, [])) (hmem : lineFeed ∈ t) :
    k = .multilineStringLine ∧ ∃ a, lineFeed ∉ a ∧ t = a ++ [lineFeed] := by
  obtain ⟨a, r, rfl, ha⟩ := List.eq_append_cons_of_mem hmem
  have hwell : Utf8.WellFormed a := ((Utf8.wellFormed_append_cons_iff (by decide)).1 ht).1
  cases hnext : nextLexeme? a with
  | none =>
    -- the line feed would go on with a gap, but nothing is passed over in front of the token
    have hgap := ((isGap_of_nextLexeme? hnext).append_lineFeed rfl r).nextLexeme?_append
    rw [List.append_assoc, List.singleton_append, h] at hgap
    obtain ⟨p, -, hp⟩ := Option.map_eq_some_iff.1 hgap.symm
    exact absurd (congrArg (·.1.gap) hp) (by simp)
  | some p =>
    obtain ⟨l, rest⟩ := p
    by_cases hk : l.kind = .multilineStringLine
    · rw [nextLexeme?_append_lineFeed_of_line hnext hk ha] at h
      obtain ⟨hlexeme, rfl⟩ := Prod.mk.inj (Option.some.inj h)
      exact ⟨(congrArg Lexeme.kind hlexeme).symm, a, ha, rfl⟩
    · -- the token would end in front of the line feed, but nothing is left behind it
      rw [nextLexeme?_append_lineFeed r hnext hwell fun hl => absurd hl hk] at h
      exact absurd (congrArg (·.2) (Option.some.inj h)) (by simp)

/-- A token of a source has a line feed only as a line of a multiline string, and there at its
end. -/
lemma lineFeed_of_mem_lex {file : UInt32} {source : Bytes} {t : Token} (ht : t ∈ lex file source)
    (hmem : lineFeed ∈ t.lexeme) :
    t.kind = .multilineStringLine ∧ ∃ a, lineFeed ∉ a ∧ t.lexeme = a ++ [lineFeed] := by
  have hend : t ≠ Token.atEnd file source.length := by
    rintro rfl
    exact absurd hmem (by simp [Token.atEnd])
  cases hmalformed : Utf8.malformed? source with
  | none =>
    rw [lex_of_wellFormed hmalformed] at ht
    have ht := (List.mem_append.1 ht).resolve_right fun ht => hend (List.mem_singleton.1 ht)
    obtain ⟨hwell, -, hnext⟩ := nextLexeme?_lexeme hmalformed ht
    exact exists_eq_append_lineFeed hwell hnext hmem
  | some p =>
    obtain ⟨offset, b⟩ := p
    obtain ⟨_, _, -, -, -, hstop⟩ := Utf8.exists_split_of_malformed? hmalformed
    rw [lex_of_malformed hmalformed] at ht
    have ht := (List.mem_cons.1 ht).resolve_right fun ht => hend (List.mem_singleton.1 ht)
    -- the one byte shown is no ASCII byte
    obtain rfl : lineFeed = b := by simpa [ht] using hmem
    exact absurd (Utf8.le_of_sequence?_eq_none hstop) (by decide)

/-! ### The lines of a listing -/

/-- No line feed stands in front of the last byte exactly if every line feed is the last byte. -/
lemma lineFeed_notMem_dropLast_iff :
    lineFeed ∉ t.dropLast ↔ ∀ i, t[i]? = some lineFeed → i + 1 = t.length := by
  simp only [List.mem_iff_getElem?, not_exists, List.getElem?_dropLast]
  constructor
  · intro h i hi
    have hlt := (List.getElem?_eq_some_iff.1 hi).1
    by_contra hne
    exact h i (by rw [if_pos (by omega), hi])
  · intro h i hi
    split at hi
    · have := h i hi
      omega
    · simp at hi

/-- The name of a kind is written on one line. -/
lemma Kind.lineFeed_notMem_name (k : Kind) : lineFeed ∉ k.name := by
  cases k with
  | punct p => exact lineFeed_notMem_of_isPlain p.isPlain_of_mem
  | keyword k =>
    have hkeywords : ∀ s ∈ keywordSpellings, lineFeed ∉ s := by decide +kernel
    exact hkeywords k.spelling k.spelling_mem
  | _ => decide

/-- A number is written on one line. -/
lemma lineFeed_notMem_decimal (n : Nat) : lineFeed ∉ decimal n := fun hmem =>
  absurd (isDigit_of_mem_decimal hmem) (by decide)

namespace Token

/-- Only the line feeds in front of the last byte are shown. -/
lemma count_shown (t : Token) : t.shown.count lineFeed = t.lexeme.dropLast.count lineFeed := by
  unfold shown
  split
  · rfl
  · next hlast =>
    rcases List.eq_nil_or_concat t.lexeme with hnil | ⟨front, b, hconcat⟩
    · rw [hnil]
      rfl
    · rw [hconcat, List.concat_eq_append] at hlast ⊢
      have hb : [b].count lineFeed = 0 := by
        rw [List.getLast?_concat, Option.some.injEq] at hlast
        exact List.count_eq_zero.2 (by simpa using Ne.symm hlast)
      rw [List.dropLast_concat, List.count_append, hb, Nat.add_zero]

/-- Line feeds come into an entry only with the bytes of its token. -/
lemma count_entry (t : Token) : t.entry.count lineFeed = t.lexeme.dropLast.count lineFeed := by
  have hascii : (ascii "  ").count lineFeed = 0 ∧ (ascii " '").count lineFeed = 0 ∧
      (ascii "' @").count lineFeed = 0 ∧ (ascii "..").count lineFeed = 0 := by decide
  obtain ⟨hindent, hopen, hclose, hdots⟩ := hascii
  simp only [entry, List.count_append, hindent, hopen, hclose, hdots,
    List.count_eq_zero_of_not_mem t.kind.lineFeed_notMem_name,
    List.count_eq_zero_of_not_mem (lineFeed_notMem_decimal _), count_shown, Nat.zero_add,
    Nat.add_zero]

/-- The line feeds of a listing: that of the heading, one for each token, and those in front of the
last bytes of tokens. -/
lemma count_listing (ts : List Token) :
    (listing ts).count lineFeed =
      1 + ts.length + (ts.map fun t => t.lexeme.dropLast.count lineFeed).sum := by
  have hheading : (ascii "TOKENS:\n").count lineFeed = 1 := by decide
  have hlines : (ts.map listingLine).flatten.count lineFeed =
      ts.length + (ts.map fun t => t.lexeme.dropLast.count lineFeed).sum := by
    induction ts with
    | nil => rfl
    | cons t ts ih =>
      rw [List.map_cons, List.flatten_cons, List.count_append, listingLine,
        List.count_append, count_entry, List.count_singleton_self, ih, List.length_cons,
        List.map_cons, List.sum_cons]
      omega
  rw [listing, List.count_append, hheading, hlines, Nat.add_assoc]

/-- A listing has one line for each token exactly if line feeds stand only at the ends of tokens. -/
lemma count_listing_eq_iff (ts : List Token) :
    (listing ts).count lineFeed = 1 + ts.length ↔ ∀ t ∈ ts, lineFeed ∉ t.lexeme.dropLast := by
  rw [count_listing, Nat.add_eq_left, List.sum_eq_zero_iff_forall_eq_nat]
  simp [List.count_eq_zero]

end Token

/-- Texts that are written one to a line are read back as the lines, with nothing behind the last
one. -/
lemma splitOn_flatMap_lines {lines : List Bytes} (h : ∀ line ∈ lines, lineFeed ∉ line) :
    (lines.flatMap (· ++ [lineFeed])).splitOn lineFeed = lines ++ [[]] := by
  induction lines with
  | nil => rfl
  | cons line lines ih =>
    obtain ⟨hline, hlines⟩ := List.forall_mem_cons.1 h
    rw [List.flatMap_cons, List.append_assoc, List.singleton_append,
      List.splitOn_append_cons_self_of_not_mem hline, ih hlines, List.cons_append]

/-- The lines of a listing of tokens that have line feeds only at their ends. -/
lemma Token.splitOn_listing {ts : List Token} (h : ∀ t ∈ ts, lineFeed ∉ t.lexeme.dropLast) :
    (listing ts).splitOn lineFeed = ascii "TOKENS:" :: ts.map entry ++ [[]] := by
  have hheading : ascii "TOKENS:\n" = ascii "TOKENS:" ++ [lineFeed] := by decide
  have hlisting : listing ts = (ascii "TOKENS:" :: ts.map entry).flatMap (· ++ [lineFeed]) := by
    rw [listing, hheading, List.flatMap_cons, List.flatMap_map, List.flatMap_def]
    rfl
  have hentries : ∀ t ∈ ts, lineFeed ∉ t.entry := by
    intro t ht
    rw [← List.count_eq_zero, count_entry]
    exact List.count_eq_zero.2 (h t ht)
  rw [hlisting, splitOn_flatMap_lines]
  simpa using ⟨by decide, hentries⟩

/-! ### Result -/

/-- A listing of the tokens of a source has its heading and one line for each token, which says what
the token is.  For a line feed stands in a token only if the token, valid or not, is a line of a
multiline string, and there it is the last byte; and among all lists of tokens those have such a
listing in which every line feed is the last byte of its token. -/
theorem listing_lex (file : UInt32) (source : Bytes) :
    (Token.listing (lex file source)).count lineFeed = 1 + (lex file source).length ∧
      (Token.listing (lex file source)).splitOn lineFeed =
        ascii "TOKENS:" :: (lex file source).map Token.entry ++ [[]] ∧
      (∀ t ∈ lex file source, ∀ i, t.lexeme[i]? = some lineFeed →
        t.kind = .multilineStringLine ∧ i + 1 = t.lexeme.length) ∧
      ∀ ts : List Token, (Token.listing ts).count lineFeed = 1 + ts.length ↔
        ∀ t ∈ ts, ∀ i, t.lexeme[i]? = some lineFeed → i + 1 = t.lexeme.length := by
  have hlast : ∀ t ∈ lex file source, lineFeed ∉ t.lexeme.dropLast := by
    intro t ht hmem
    obtain ⟨-, a, ha, heq⟩ := lineFeed_of_mem_lex ht (List.dropLast_subset _ hmem)
    rw [heq, List.dropLast_concat] at hmem
    exact ha hmem
  refine ⟨(Token.count_listing_eq_iff _).2 hlast, Token.splitOn_listing hlast, ?_, ?_⟩
  · intro t ht i hi
    exact ⟨(lineFeed_of_mem_lex ht (List.mem_of_getElem? hi)).1,
      lineFeed_notMem_dropLast_iff.1 (hlast t ht) i hi⟩
  · intro ts
    simp only [Token.count_listing_eq_iff, lineFeed_notMem_dropLast_iff]

end ZigGolf
