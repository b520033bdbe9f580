import Mathlib.Algebra.Group.Nat.Defs
import ZigGolf.Proofs.Bytes.Encoding

/-!
# Characters read back

The lenient reading of a text puts the bits of a code point together without asking whether its
bytes are well formed.  Where they are it is right: from the encoding of a character exactly its
number is read, and every byte behind the first is taken with it (`decode?_utf8EncodeChar`).  The
bits are put together by shifting, which multiplies a number by 64 as long as no bit is shifted out
of the word.
-/

namespace ZigGolf.Utf8

variable {x : UInt8} {t : Bytes}

/-- A lead byte adds its number without the mark that tells the length. -/
lemma lead?_eq : ∀ a : UInt8,
    (a.toNat < 0x80 → lead? a = some (UInt32.ofNat a.toNat, 0)) ∧
      (0xC0 ≤ a.toNat → a.toNat < 0xE0 → lead? a = some (UInt32.ofNat (a.toNat - 0xC0), 1)) ∧
      (0xE0 ≤ a.toNat → a.toNat < 0xF0 → lead? a = some (UInt32.ofNat (a.toNat - 0xE0), 2)) ∧
      (0xF0 ≤ a.toNat → a.toNat < 0xF8 → lead? a = some (UInt32.ofNat (a.toNat - 0xF0), 3)) := by
  decide +kernel

/-- Puts the six bits of a continuation byte behind the bits read so far. -/
def addBits (cp : UInt32) (c : UInt8) : UInt32 := (cp <<< 6) ||| (c &&& 0x3F).toUInt32

/-- Six bits are added below the bits of a code point as long as there is room. -/
lemma toNat_addBits {cp : UInt32} (h : cp.toNat < 2 ^ 26) (c : UInt8) :
    (addBits cp c).toNat = cp.toNat * 64 + c.toNat % 64 := by
  have hlow : (c &&& 0x3F).toUInt32.toNat = c.toNat % 2 ^ 6 := by
    rw [UInt8.toNat_toUInt32, UInt8.toNat_and]
    exact Nat.and_two_pow_sub_one_eq_mod c.toNat 6
  have hhigh : (cp <<< 6).toNat = cp.toNat <<< 6 := by
    rw [UInt32.toNat_shiftLeft]
    change cp.toNat <<< 6 % 2 ^ 32 = cp.toNat <<< 6
    rw [Nat.shiftLeft_eq]
    omega
  rw [addBits, UInt32.toNat_or, hhigh, hlow,
    ← Nat.shiftLeft_add_eq_or_of_lt (Nat.mod_lt _ (by decide)), Nat.shiftLeft_eq]

/-- Up to thirty bits no bit is lost. -/
lemma toNat_foldl_addBits {bits : UInt32} {k : Nat} (hbits : bits.toNat < 64 ^ k)
    (hk : k + t.length ≤ 5) :
    (t.foldl addBits bits).toNat = t.foldl (fun v c => v * 64 + c.toNat % 64) bits.toNat := by
  induction t generalizing bits k with
  | nil => rfl
  | cons c t ih =>
    rw [List.length_cons] at hk
    have hpow : 64 ^ k ≤ 64 ^ 4 := Nat.pow_le_pow_right (by decide) (by omega)
    have hstep := toNat_addBits (by omega : bits.toNat < 2 ^ 26) c
    have hnext : (addBits bits c).toNat < 64 ^ (k + 1) := by
      rw [hstep, Nat.pow_succ]
      omega
    rw [List.foldl_cons, List.foldl_cons, ih hnext (by omega), hstep]

/-- A lead byte with the continuation bytes that it asks for is read as the number that their bits
make up. -/
lemma decode?_of_lead? {n : Nat} {cp : UInt32} (ht : ∀ c ∈ t, isContinuation c = true)
    (hlead : lead? x = some (UInt32.ofNat n, t.length)) (hn : n < 64 ^ 2) (hlength : t.length ≤ 3)
    (hcp : t.foldl (fun v c => v * 64 + c.toNat % 64) n = cp.toNat) :
    decode? x t = some (cp, t.length) := by
  have hall : t.all isContinuation = true := List.all_eq_true.2 ht
  have hbits : (UInt32.ofNat n).toNat = n := by
    rw [UInt32.toNat_ofNat']
    omega
  have hfold := toNat_foldl_addBits (by omega : (UInt32.ofNat n).toNat < 64 ^ 2)
    (by omega : 2 + t.length ≤ 5)
  rw [hbits, hcp] at hfold
  simp only [decode?, hlead, List.take_length, hall, and_self, ↓reduceIte]
  exact congrArg (fun cp => some (cp, t.length)) (UInt32.toNat_inj.1 hfold)

/-- A continuation byte adds the six bits that it was made of. -/
lemma mod_continuation (n : Nat) : (n % 64 + 0x80) % 2 ^ 8 % 64 = n % 64 := by omega

/-- From the encoding of a character its number is read, and no byte is left over. -/
lemma decode?_utf8EncodeChar {c : Char} (h : String.utf8EncodeChar c = x :: t) :
    decode? x t = some (c.val, t.length) := by
  have hsequence : IsSequence (x :: t) := isSequence_iff_inRange.2 (h ▸ inRange_utf8EncodeChar c)
  have ht := hsequence.isContinuation_of_mem_tail
  have hvalid : c.val.toNat.isValidChar := c.valid
  unfold Nat.isValidChar at hvalid
  obtain ⟨hone, htwo, hthree, hfour⟩ := lead?_eq x
  unfold String.utf8EncodeChar at h
  dsimp only at h
  -- in each case the number is put together again from the parts that it was divided into
  split at h
  · obtain ⟨rfl, rfl⟩ := List.cons.inj h
    rw [UInt8.toNat_ofNat'] at hone
    refine decode?_of_lead? ht (hone (by omega)) (by omega) (by simp) ?_
    rw [List.foldl_nil]
    omega
  split at h
  · obtain ⟨rfl, rfl⟩ := List.cons.inj h
    rw [UInt8.toNat_ofNat'] at htwo
    refine decode?_of_lead? ht (htwo (by omega) (by omega)) (by omega) (by simp) ?_
    simp only [List.foldl_cons, List.foldl_nil, UInt8.toNat_ofNat', mod_continuation]
    omega
  split at h
  · obtain ⟨rfl, rfl⟩ := List.cons.inj h
    rw [UInt8.toNat_ofNat'] at hthree
    refine decode?_of_lead? ht (hthree (by omega) (by omega)) (by omega) (by simp) ?_
    simp only [List.foldl_cons, List.foldl_nil, UInt8.toNat_ofNat', mod_continuation]
    omega
  · obtain ⟨rfl, rfl⟩ := List.cons.inj h
    rw [UInt8.toNat_ofNat'] at hfour
    refine decode?_of_lead? ht (hfour (by omega) (by omega)) (by omega) (by simp) ?_
    simp only [List.foldl_cons, List.foldl_nil, UInt8.toNat_ofNat', mod_continuation]
    omega

/-- Decoding the encoding of a character gives the character and the number of continuation bytes.
-/
lemma decode_utf8EncodeChar {c : Char} (h : String.utf8EncodeChar c = x :: t) :
    decode x t = (c.val, t.length) := by
  rw [decode, decode?_utf8EncodeChar h]
  rfl

end ZigGolf.Utf8
