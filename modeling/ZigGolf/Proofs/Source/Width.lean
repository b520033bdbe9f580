import Mathlib.Algebra.GroupWithZero.Nat
import ZigGolf.Proofs.Bytes.Decoding
import ZigGolf.Source.Width

/-!
# The width of well-formed text

A sequence is read whole for display, and what stands behind it has no part in how it is read.  So
the columns of a well-formed text are the same whether the text is looked at alone or with more
behind it (`displayWidth_append`), and they are the columns of the characters that it encodes
(`toNat_displayWidth_flatMap`).
-/

namespace ZigGolf

variable {x : UInt8} {t a : Bytes}

namespace Utf8

/-- A sequence is read whole, whatever stands behind it. -/
lemma IsSequence.decode?_append (h : IsSequence (x :: t)) (r : Bytes) :
    decode? x (t ++ r) = decode? x t ∧ (decode? x t).map (·.2) = some t.length := by
  have hlength := h.length_eq
  obtain ⟨lead, hlead, hcount⟩ := Option.map_eq_some_iff.1 h.lead_spec.2
  obtain ⟨bits, n⟩ := lead
  obtain rfl : n = t.length := by
    rw [List.length_cons, ← hcount] at hlength
    exact (Nat.succ.inj hlength).symm
  have hall : t.all isContinuation = true := List.all_eq_true.2 h.isContinuation_of_mem_tail
  unfold decode?
  simp [hlead, hall]

/-- Decoding a sequence does not depend on what follows, and takes all of it. -/
lemma IsSequence.decode_append (h : IsSequence (x :: t)) (r : Bytes) :
    decode x (t ++ r) = decode x t ∧ (decode x t).2 = t.length := by
  obtain ⟨happend, hcount⟩ := h.decode?_append r
  obtain ⟨p, hp, hlength⟩ := Option.map_eq_some_iff.1 hcount
  rw [decode, decode, happend, hp]
  exact ⟨rfl, hlength⟩

end Utf8

/-! ### Columns -/

/-- Where no byte may be taken nothing is shown. -/
@[simp] lemma codePointWidths_zero (s : Bytes) : codePointWidths 0 s = [] := by
  rw [codePointWidths, unroll_of_none _ _ _ rfl]

/-- The empty text has no columns. -/
@[simp] lemma codePointWidths_nil (limit : Nat) : codePointWidths limit [] = [] := by
  cases limit with
  | zero => exact codePointWidths_zero []
  | succ limit => rw [codePointWidths, unroll_of_none _ _ _ rfl]

/-- The first code point is counted, and then what stands behind it. -/
lemma codePointWidths_cons (limit : Nat) (x : UInt8) (rest : Bytes) :
    codePointWidths (limit + 1) (x :: rest) =
      codePointWidth (Utf8.decode x rest).1 ::
        codePointWidths (limit - (Utf8.decode x rest).2) (rest.drop (Utf8.decode x rest).2) := by
  rw [codePointWidths, unroll_of_some _ _ _ rfl]
  rfl

/-- The width of a sequence is counted, and then what stands behind it. -/
lemma codePointWidths_of_isSequence (h : Utf8.IsSequence (x :: t)) (limit : Nat) (r : Bytes) :
    codePointWidths ((x :: t).length + limit) (x :: t ++ r) =
      codePointWidth (Utf8.decode x t).1 :: codePointWidths limit r := by
  obtain ⟨hdecode, hcount⟩ := h.decode_append r
  rw [List.length_cons, Nat.add_right_comm, List.cons_append, codePointWidths_cons, hdecode, hcount,
    List.drop_left, Nat.add_sub_cancel_left]

/-- Only the well-formed text itself is counted. -/
lemma codePointWidths_append (ha : Utf8.WellFormed a) (r : Bytes) :
    codePointWidths a.length (a ++ r) = codePointWidths a.length a := by
  induction ha using Utf8.WellFormed.induction with
  | nil => rw [List.length_nil, codePointWidths_zero, codePointWidths_zero]
  | append t rest ht _ ih =>
    obtain ⟨x, t, rfl⟩ := List.exists_cons_of_ne_nil ht.ne_nil
    rw [List.length_append, List.append_assoc, codePointWidths_of_isSequence ht,
      codePointWidths_of_isSequence ht, ih]

/-- The columns of a well-formed text do not depend on what stands behind it. -/
lemma displayWidth_append (ha : Utf8.WellFormed a) (r : Bytes) :
    displayWidth a.length (a ++ r) = displayWidth a.length a := by
  rw [displayWidth, displayWidth, codePointWidths_append ha]

/-! ### Characters -/

/-- The widths that are counted in the encoding of some characters are those of the characters. -/
lemma codePointWidths_flatMap (text : List Char) :
    codePointWidths (text.flatMap String.utf8EncodeChar).length
        (text.flatMap String.utf8EncodeChar) =
      text.map fun c => codePointWidth c.val := by
  induction text with
  | nil => rw [List.flatMap_nil, codePointWidths_nil, List.map_nil]
  | cons c text ih =>
    have hsequence := Utf8.isSequence_iff_inRange.2 (Utf8.inRange_utf8EncodeChar c)
    rw [List.flatMap_cons, List.map_cons, ← ih]
    cases hbytes : String.utf8EncodeChar c with
    | nil => exact absurd hbytes hsequence.ne_nil
    | cons x t =>
      rw [hbytes] at hsequence
      rw [List.length_append, codePointWidths_of_isSequence hsequence,
        Utf8.decode_utf8EncodeChar hbytes]

/-- Words are added up as their numbers are, up to multiples of the size of a word. -/
lemma toNat_foldl_add (ws : List UInt32) (w : UInt32) :
    (ws.foldl (· + ·) w).toNat = (w.toNat + (ws.map UInt32.toNat).sum) % 2 ^ 32 := by
  induction ws generalizing w with
  | nil =>
    rw [List.foldl_nil, List.map_nil, List.sum_nil, Nat.add_zero,
      Nat.mod_eq_of_lt w.toNat_lt]
  | cons v ws ih =>
    rw [List.foldl_cons, ih, UInt32.toNat_add, List.map_cons, List.sum_cons, Nat.mod_add_mod,
      Nat.add_assoc]

/-- The columns of the encoding of some characters are those of the characters. -/
lemma toNat_displayWidth_flatMap (text : List Char) :
    (displayWidth (text.flatMap String.utf8EncodeChar).length
        (text.flatMap String.utf8EncodeChar)).toNat =
      (text.map fun c => (codePointWidth c.val).toNat).sum % 2 ^ 32 := by
  rw [displayWidth, codePointWidths_flatMap, toNat_foldl_add, List.map_map, UInt32.toNat_zero,
    Nat.zero_add]
  rfl

end ZigGolf
