import Mathlib.Data.List.Nodup
import ZigGolf.Token.Punctuation
import ZigGolf.Proofs.Bytes.Class

/-!
# Where a punctuation ends

The lexer takes the longest punctuation that a text starts with.  Every beginning of a spelling is a
spelling too, so a longer one is there exactly if the next byte alone makes a longer one
(`Punctuation.longest?_append_iff`): one byte of lookahead decides where a punctuation ends.
-/

namespace ZigGolf.Punctuation

/-- The texts that read as one when they come of a punctuation and a byte behind it: the spellings
of punctuations, and the start of a comment. -/
def joins (t : Bytes) : Bool := all.any (fun q => q.spelling == t) || t == ascii "//"

/-- Two slashes would start a comment. -/
lemma joins_slashes : joins [ZigGolf.slash, ZigGolf.slash] = true := by
  have hascii : ascii "//" = [ZigGolf.slash, ZigGolf.slash] := rfl
  simp [joins, hascii]

/-- No two punctuations are written alike.  Bytes are compared as numbers here, which is what can be
decided fast. -/
lemma nodup_spellings : (all.map fun p => p.spelling.map UInt8.toNat).Nodup := by decide +kernel

/-- Punctuations are told apart by their spellings. -/
lemma spelling_injective : Function.Injective spelling := by
  intro p q h
  have hmap : p.spelling.map UInt8.toNat = q.spelling.map UInt8.toNat := by rw [h]
  exact List.inj_on_of_nodup_map nodup_spellings (mem_all p) (mem_all q) hmap

/-- The punctuation without its last byte; one of a single byte stays as it is. -/
def shortened : Punctuation → Punctuation
  | deref | range => period
  | ellipsis => range
  | equal | fatArrow => assign
  | notEqual => bang
  | mergeErrors | orAssign => pipe
  | andAssign => ampersand
  | xorAssign => caret
  | remAssign => percent
  | divAssign => slash
  | concat | addAssign | addWrap | addSat => plus
  | addWrapAssign => addWrap
  | addSatAssign => addSat
  | arrow | subAssign | subWrap | subSat => minus
  | subWrapAssign => subWrap
  | subSatAssign => subSat
  | arrayMul | mulAssign | mulWrap | mulSat => star
  | mulWrapAssign => mulWrap
  | mulSatAssign => mulSat
  | lessEqual | shiftLeft => less
  | shiftLeftAssign | shiftLeftSat => shiftLeft
  | shiftLeftSatAssign => shiftLeftSat
  | greaterEqual | shiftRight => greater
  | shiftRightAssign => shiftRight
  | p => p

/-- The shortened punctuation lacks the last byte. -/
lemma spelling_shortened (p : Punctuation) (h : 1 < p.spelling.length) :
    p.shortened.spelling = p.spelling.dropLast := by
  revert h
  cases p <;> decide

/-- Every beginning of a spelling is a spelling. -/
lemma exists_spelling_eq_take (q : Punctuation) {n : Nat} (hpos : 0 < n)
    (hle : n ≤ q.spelling.length) : ∃ p : Punctuation, p.spelling = q.spelling.take n := by
  induction hm : q.spelling.length - n generalizing q with
  | zero => exact ⟨q, (List.take_of_length_le (by omega)).symm⟩
  | succ m ih =>
    have hshort := spelling_shortened q (by omega)
    have hlength : q.shortened.spelling.length = q.spelling.length - 1 := by
      rw [hshort, List.length_dropLast]
    obtain ⟨p, hp⟩ := ih q.shortened (by omega) (by omega)
    refine ⟨p, ?_⟩
    rw [hp, hshort, List.dropLast_eq_take, List.take_take, Nat.min_eq_left (by omega)]

/-- The bytes of a spelling belong to no name, and no quote, blank or sigil is among them. -/
lemma isPunctuationByte_of_mem (p : Punctuation) :
    ∀ b ∈ p.spelling, isPunctuationByte b = true := by
  have hall : p.spelling.all isPunctuationByte = true := by cases p <;> rfl
  exact List.all_eq_true.1 hall

/-- The longest punctuation is one that fits, and no longer one fits. -/
lemma longest?_eq_some_iff {s : Bytes} {q : Punctuation} :
    longest? s = some q ↔
      q.spelling <+: s ∧ ∀ p : Punctuation, p.spelling <+: s →
        p.spelling.length ≤ q.spelling.length := by
  have hsound : ∀ {q}, longest? s = some q → q.spelling <+: s ∧
      ∀ p : Punctuation, p.spelling <+: s → p.spelling.length ≤ q.spelling.length := by
    intro q h
    obtain ⟨hq, before, after, hsplit, hnot⟩ := List.find?_eq_some_iff_append.1 h
    refine ⟨by simpa using hq, fun p hp => ?_⟩
    -- `p` fits, so it is not tried before `q`
    have hmem : p ∈ before ++ q :: after := hsplit ▸ mem_byLength p
    have hpair := byLength_pairwise
    rw [hsplit, List.pairwise_append] at hpair
    rcases List.mem_append.1 hmem with hp' | hp'
    · have hnot' : p.spelling.isPrefixOf s = false := by simpa using hnot p hp'
      rw [← List.isPrefixOf_iff_prefix, hnot'] at hp
      exact absurd hp (by simp)
    · rcases List.mem_cons.1 hp' with rfl | hp'
      · exact Nat.le_refl _
      · exact (List.pairwise_cons.1 hpair.2.1).1 p hp'
  constructor
  · exact hsound
  · rintro ⟨hq, hlongest⟩
    cases h : longest? s with
    | none =>
      have := List.find?_eq_none.1 h q (mem_byLength q)
      exact absurd hq (by simpa using this)
    | some p =>
      obtain ⟨hp, hp'⟩ := hsound h
      have hlength : p.spelling.length = q.spelling.length :=
        Nat.le_antisymm (hlongest p hp) (hp' q hq)
      have heq : p.spelling = q.spelling :=
        (List.prefix_of_prefix_length_le hp hq hlength.le).eq_of_length hlength
      rw [spelling_injective heq]

/-- A punctuation is the longest one exactly if the byte behind it does not make a longer one of
it. -/
theorem longest?_append_iff {p : Punctuation} {r : Bytes} :
    longest? (p.spelling ++ r) = some p ↔
      ∀ b ∈ r.head?, ∀ q : Punctuation, q.spelling ≠ p.spelling ++ [b] := by
  rw [longest?_eq_some_iff]
  constructor
  · rintro ⟨-, hlongest⟩ b hb q hq
    obtain ⟨r, rfl⟩ := List.head?_eq_some_iff.1 hb
    have hfit : q.spelling <+: p.spelling ++ b :: r := ⟨r, by simp [hq]⟩
    have hle := hlongest q hfit
    rw [hq, List.length_append, List.length_singleton] at hle
    omega
  · intro hnot
    refine ⟨List.prefix_append _ _, fun q hq => ?_⟩
    by_contra hlt
    rw [Nat.not_le] at hlt
    -- the first byte of the longer spelling behind `p` makes a spelling already
    obtain ⟨q', hq'⟩ := q.exists_spelling_eq_take (Nat.succ_pos p.spelling.length) hlt
    obtain ⟨u, hu⟩ : ∃ u, q.spelling = p.spelling ++ u := by
      obtain ⟨u, hu⟩ := List.prefix_of_prefix_length_le (List.prefix_append _ r) hq hlt.le
      exact ⟨u, hu.symm⟩
    cases u with
    | nil => simp [hu] at hlt
    | cons b u =>
      rw [hu, List.prefix_append_right_inj] at hq
      obtain ⟨v, hv⟩ := hq
      refine hnot b ?_ q' ?_
      · simp [← hv]
      · rw [hq', hu, Nat.succ_eq_add_one, List.take_length_add_append]
        rfl

end ZigGolf.Punctuation
