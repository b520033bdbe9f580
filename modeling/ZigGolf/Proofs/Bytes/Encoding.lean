import ZigGolf.Proofs.Bytes.Utf8

/-!
# UTF-8 as an encoding of characters

A well-formed text was defined by how it is read.  Here it is described by what it stands for: a
text is well formed if and only if it is the encoding of some characters (`isEncoding_iff`), where a
character is any Unicode scalar value and is written in the shortest form.  So the bounds on second
bytes, which keep out longer forms, surrogates and numbers beyond the last scalar value, keep out
nothing else.
-/

namespace ZigGolf.Utf8

/-- The texts that are the UTF-8 encoding of some characters. -/
def IsEncoding (s : Bytes) : Prop := ∃ text : List Char, s = text.flatMap String.utf8EncodeChar

/-! ### Sequences by the numbers of their bytes -/

/-- The sequences of one to four bytes, by the ranges in which the numbers of their bytes lie. -/
inductive InRange : Bytes → Prop
  | one {a : UInt8} : a.toNat < 0x80 → InRange [a]
  | two {a b : UInt8} : 0xC2 ≤ a.toNat → a.toNat ≤ 0xDF → isContinuation b = true → InRange [a, b]
  | three {a b c : UInt8} : 0xE0 ≤ a.toNat → a.toNat ≤ 0xEF →
      (a.toNat = 0xE0 → 0xA0 ≤ b.toNat) → (a.toNat = 0xED → b.toNat < 0xA0) →
      isContinuation b = true → isContinuation c = true → InRange [a, b, c]
  | four {a b c d : UInt8} : 0xF0 ≤ a.toNat → a.toNat ≤ 0xF4 →
      (a.toNat = 0xF0 → 0x90 ≤ b.toNat) → (a.toNat = 0xF4 → b.toNat ≤ 0x8F) →
      isContinuation b = true → isContinuation c = true → isContinuation d = true →
      InRange [a, b, c, d]

/-- The sequences that are read are those in range. -/
lemma isSequence_iff_inRange {t : Bytes} : IsSequence t ↔ InRange t := by
  unfold IsSequence sequence?
  -- all comparisons of bytes become comparisons of their numbers
  simp only [beq_eq_decide, UInt8.le_iff_toNat_le, UInt8.lt_iff_toNat_lt, ← UInt8.toNat_inj,
    UInt8.reduceToNat]
  constructor
  · intro h
    repeat' split at h
    all_goals simp only [Option.some.injEq, Prod.mk.injEq, reduceCtorEq] at h
    all_goals obtain ⟨hcons, -⟩ := h
    all_goals rw [← hcons]
    · exact .one ‹_›
    · apply InRange.two <;> grind
    · apply InRange.three <;> grind
    · apply InRange.four <;> grind
  · intro h
    cases h with
    | one => grind
    | two => grind
    | three => grind
    | four => grind

/-- The range of continuation bytes. -/
lemma isContinuation_iff : ∀ b : UInt8,
    isContinuation b = true ↔ 0x80 ≤ b.toNat ∧ b.toNat ≤ 0xBF := by
  decide +kernel

/-- Six bits of a number make a continuation byte. -/
lemma isContinuation_ofNat (n : Nat) : isContinuation (UInt8.ofNat (n % 64 + 128)) = true := by
  rw [isContinuation_iff, UInt8.toNat_ofNat']
  omega

/-! ### Characters -/

/-- A character is encoded as a sequence. -/
lemma inRange_utf8EncodeChar (c : Char) : InRange (String.utf8EncodeChar c) := by
  have hvalid : c.val.toNat.isValidChar := c.valid
  unfold Nat.isValidChar at hvalid
  unfold String.utf8EncodeChar
  generalize c.val.toNat = v at hvalid
  dsimp only
  split
  · refine .one ?_
    rw [UInt8.toNat_ofNat']
    omega
  split
  · refine .two ?_ ?_ (isContinuation_ofNat v)
    all_goals
      rw [UInt8.toNat_ofNat']
      omega
  split
  · refine .three ?_ ?_ ?_ ?_ (isContinuation_ofNat _) (isContinuation_ofNat v)
    all_goals
      simp only [UInt8.toNat_ofNat']
      omega
  · refine .four ?_ ?_ ?_ ?_ (isContinuation_ofNat _) (isContinuation_ofNat _)
      (isContinuation_ofNat v)
    all_goals
      simp only [UInt8.toNat_ofNat']
      omega

/-- The character of two to four bytes in range is put together from the bits that the first byte
has beyond its mark and from six bits of each other byte. -/
lemma InRange.exists_char {t : Bytes} (h : InRange t) :
    ∃ c : Char, t = String.utf8EncodeChar c := by
  have hbyte : ∀ (b : UInt8) {n : Nat}, n = b.toNat → b = UInt8.ofNat n := by
    rintro b n rfl
    exact UInt8.ofNat_toNat.symm
  -- every scalar value is the number of a character
  have hchar : ∀ v : Nat, v.isValidChar → ∃ c : Char, c.val.toNat = v :=
    fun v hv => ⟨Char.ofNatAux v hv, rfl⟩
  unfold Nat.isValidChar at hchar
  cases h with
  | @one a ha =>
    obtain ⟨x, hx⟩ := hchar a.toNat (by omega)
    refine ⟨x, ?_⟩
    rw [String.utf8EncodeChar, hx, if_pos (by omega), ← hbyte a rfl]
  | @two a b ha ha' hb =>
    rw [isContinuation_iff] at hb
    obtain ⟨x, hx⟩ := hchar ((a.toNat - 0xC0) * 64 + (b.toNat - 0x80)) (by omega)
    refine ⟨x, ?_⟩
    rw [String.utf8EncodeChar, hx, if_neg (by omega), if_pos (by omega),
      ← hbyte a (by omega), ← hbyte b (by omega)]
  | @three a b c ha ha' hlong hsurrogate hb hc =>
    rw [isContinuation_iff] at hb hc
    obtain ⟨x, hx⟩ := hchar
      ((a.toNat - 0xE0) * 4096 + (b.toNat - 0x80) * 64 + (c.toNat - 0x80)) (by omega)
    refine ⟨x, ?_⟩
    rw [String.utf8EncodeChar, hx, if_neg (by omega), if_neg (by omega),
      if_pos (by omega), ← hbyte a (by omega), ← hbyte b (by omega), ← hbyte c (by omega)]
  | @four a b c d ha ha' hlong hlast hb hc hd =>
    rw [isContinuation_iff] at hb hc hd
    obtain ⟨x, hx⟩ := hchar
      ((a.toNat - 0xF0) * 262144 + (b.toNat - 0x80) * 4096 + (c.toNat - 0x80) * 64 +
        (d.toNat - 0x80)) (by omega)
    refine ⟨x, ?_⟩
    rw [String.utf8EncodeChar, hx, if_neg (by omega), if_neg (by omega),
      if_neg (by omega), ← hbyte a (by omega), ← hbyte b (by omega), ← hbyte c (by omega),
      ← hbyte d (by omega)]

/-- An ASCII byte starts the encoding of one character only, that with its number. -/
lemma eq_ofNat_of_utf8EncodeChar {c : Char} {a : UInt8} {t : Bytes}
    (h : String.utf8EncodeChar c = a :: t) (ha : a < 0x80) : c = Char.ofNat a.toNat := by
  have hvalue : c.val.toNat = a.toNat := by
    have hvalid : c.val.toNat.isValidChar := c.valid
    unfold Nat.isValidChar at hvalid
    replace ha : a.toNat < 0x80 := UInt8.lt_iff_toNat_lt.1 ha
    unfold String.utf8EncodeChar at h
    dsimp only at h
    repeat' split at h
    all_goals
      obtain rfl := (List.cons.inj h).1
      rw [UInt8.toNat_ofNat'] at ha ⊢
      omega
  rw [← hvalue]
  exact c.ofNat_toNat.symm

/-! ### Texts -/

/-- A text is the encoding of some characters if and only if it is well formed. -/
theorem isEncoding_iff {s : Bytes} : IsEncoding s ↔ WellFormed s := by
  constructor
  · rintro ⟨text, rfl⟩
    induction text with
    | nil => exact wellFormed_nil
    | cons c text ih =>
      have hc := isSequence_iff_inRange.2 (inRange_utf8EncodeChar c)
      rw [List.flatMap_cons]
      exact (wellFormed_append_iff_of_isSequence hc).2 ih
  · intro h
    induction h using WellFormed.induction with
    | nil => exact ⟨[], rfl⟩
    | append t r ht _ ih =>
      obtain ⟨c, rfl⟩ := (isSequence_iff_inRange.1 ht).exists_char
      obtain ⟨text, rfl⟩ := ih
      exact ⟨c :: text, rfl⟩

end ZigGolf.Utf8
