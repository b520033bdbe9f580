import Mathlib.Order.Bounds.Defs
import ZigGolf.Proofs.Lexing.Tiling

/-!
# Where a source stops being UTF-8

Sequences are taken off the front of a source until none is left to take.  What has been taken is
then the longest part at the front of the source that is UTF-8 (`Utf8.le_of_wellFormed_take`): a
longer one would go on with a sequence where none stands.  So the place at which a malformed source
is reported is the end of that part, and the byte there is no ASCII byte
(`isGreatest_malformed_offset`).
-/

namespace ZigGolf

namespace Utf8

variable {a s : Bytes} {offset : Nat} {b : UInt8}

/-- A well-formed text in front has no part in whether a text is well formed. -/
lemma WellFormed.append_iff (ha : WellFormed a) : WellFormed (a ++ s) ↔ WellFormed s := by
  induction ha using WellFormed.induction with
  | nil => rfl
  | append t r ht _ ih =>
    rw [List.append_assoc, wellFormed_append_iff_of_isSequence ht]
    exact ih

/-- Where no sequence stands there is no ASCII byte. -/
lemma le_of_sequence?_eq_none {r : Bytes} (h : sequence? (b :: r) = none) : 0x80 ≤ b := by
  rw [← UInt8.not_lt]
  intro hlt
  have hsequence : sequence? (b :: r) = some ([b], r) :=
    sequence?_eq_some_iff.2 ⟨isSequence_singleton hlt, rfl⟩
  rw [hsequence] at h
  exact absurd h (by simp)

/-- Where no sequence stands none starts however much of the text is taken. -/
lemma not_wellFormed_take {r : Bytes} (h : sequence? (b :: r) = none) (n : Nat) :
    ¬ WellFormed ((b :: r).take (n + 1)) := by
  intro hwell
  obtain ⟨t, u, ht, hsplit, -⟩ := hwell.exists_sequence (by simp)
  have hsequence : sequence? (b :: r) = some (t, u ++ (b :: r).drop (n + 1)) := by
    refine sequence?_eq_some_iff.2 ⟨ht, ?_⟩
    rw [← List.append_assoc, ← hsplit, List.take_append_drop]
  rw [hsequence] at h
  exact absurd h (by simp)

/-- No longer part at the front of a malformed text is well formed. -/
lemma le_of_wellFormed_take (h : malformed? s = some (offset, b)) {n : Nat} (hn : n ≤ s.length)
    (hwell : WellFormed (s.take n)) : n ≤ offset := by
  obtain ⟨a, r, rfl, rfl, ha, hstop⟩ := exists_split_of_malformed? h
  by_contra hlt
  obtain ⟨m, rfl⟩ : ∃ m, n = a.length + (m + 1) := ⟨n - a.length - 1, by omega⟩
  rw [List.take_length_add_append, ha.append_iff] at hwell
  exact not_wellFormed_take hstop m hwell

end Utf8

/-- The first token of a malformed source and the one report about it, at the place where the source
stops being UTF-8.  Token and report get their places apart, and they agree. -/
lemma exists_span_of_malformed? (file : UInt32) {source : Bytes} {offset : Nat} {b : UInt8}
    (h : Utf8.malformed? source = some (offset, b)) (hlength : source.length < 2 ^ 32) :
    ∃ span : Span, span.file = file ∧ span.lo.toNat = offset ∧ span.hi.toNat = offset + 1 ∧
      (lex file source).head? = some ⟨.invalid, span, [b]⟩ ∧
      lexReports file source =
        [⟨.fatal, .invalidUtf8, span, [decimal offset, Diagnostic.hexPair b]⟩] := by
  have hlt : offset < source.length := by
    obtain ⟨a, r, rfl, rfl, -⟩ := Utf8.exists_split_of_malformed? h
    simp
  have hlo : offset.toUInt32.toNat = offset := by
    rw [Nat.toUInt32, UInt32.toNat_ofNat', Nat.mod_eq_of_lt (by omega)]
  have hhi : (offset.toUInt32 + 1).toNat = offset + 1 := by
    rw [UInt32.toNat_add, hlo, UInt32.toNat_one, Nat.mod_eq_of_lt (by omega)]
  refine ⟨⟨file, offset.toUInt32, offset.toUInt32 + 1⟩, rfl, hlo, hhi, ?_, ?_⟩
  · rw [lex_of_malformed h]
    rfl
  · rw [lexReports_of_malformed file h, min_malformed_add_one h hlength]
    dsimp only [Diagnostic.malformedSource]
    rw [hlo]

/-! ### Result -/

/-- A source is taken for well formed if and only if it is the encoding of some characters.  If it
is not, the place that is found is the length of the longest part at its front that is such an
encoding; it lies in the source, at a byte that is no ASCII byte.  That byte is then the first token
and what the one report is about. -/
theorem isGreatest_malformed_offset (file : UInt32) {source : Bytes}
    (hlength : source.length < 2 ^ 32) :
    (Utf8.malformed? source = none ↔ Utf8.IsEncoding source) ∧
      ∀ offset b, Utf8.malformed? source = some (offset, b) →
        IsGreatest {n | n ≤ source.length ∧ Utf8.IsEncoding (source.take n)} offset ∧
          offset < source.length ∧ source[offset]? = some b ∧ 0x80 ≤ b ∧
          ∃ span : Span, span.file = file ∧ span.lo.toNat = offset ∧ span.hi.toNat = offset + 1 ∧
            (lex file source).head? = some ⟨.invalid, span, [b]⟩ ∧
            lexReports file source =
              [⟨.fatal, .invalidUtf8, span, [decimal offset, Diagnostic.hexPair b]⟩] := by
  refine ⟨Utf8.isEncoding_iff.symm, fun offset b h => ?_⟩
  have hlongest : ∀ n ≤ source.length, Utf8.WellFormed (source.take n) → n ≤ offset :=
    fun n hn hwell => Utf8.le_of_wellFormed_take h hn hwell
  obtain ⟨a, r, rfl, rfl, ha, hstop⟩ := Utf8.exists_split_of_malformed? h
  have hlt : a.length < (a ++ b :: r).length := by simp
  refine ⟨⟨⟨hlt.le, ?_⟩, ?_⟩, hlt, by simp, Utf8.le_of_sequence?_eq_none hstop,
    exists_span_of_malformed? file h hlength⟩
  · rw [List.take_left, Utf8.isEncoding_iff]
    exact ha
  · rintro n ⟨hn, hencoding⟩
    exact hlongest n hn (Utf8.isEncoding_iff.1 hencoding)

/-- A surrogate in three bytes behind a character of two: the first byte of the three is reported,
though it is the second one that makes them a surrogate. -/
theorem isGreatest_malformed_offset_of_surrogate :
    IsGreatest {n | n ≤ 5 ∧ Utf8.IsEncoding ([0xC3, 0xA9, 0xED, 0xA0, 0x80].take n)} 2 ∧
      ∃ span : Span, span.file = 0 ∧ span.lo.toNat = 2 ∧ span.hi.toNat = 3 ∧
        (lex 0 [0xC3, 0xA9, 0xED, 0xA0, 0x80]).head? = some ⟨.invalid, span, [0xED]⟩ ∧
        lexReports 0 [0xC3, 0xA9, 0xED, 0xA0, 0x80] =
          [⟨.fatal, .invalidUtf8, span, [ascii "2", ascii "ED"]⟩] := by
  have hmalformed : Utf8.malformed? [0xC3, 0xA9, 0xED, 0xA0, 0x80] = some (2, 0xED) := by
    decide +kernel
  obtain ⟨hgreatest, -, -, -, hspan⟩ :=
    (isGreatest_malformed_offset 0 (by decide)).2 2 0xED hmalformed
  exact ⟨hgreatest, hspan⟩

end ZigGolf
