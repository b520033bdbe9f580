import Mathlib.Algebra.BigOperators.Group.Finset.Basic
import Mathlib.Data.List.Shortlex
import Mathlib.Data.Set.Card
import Mathlib.Tactic.Ring
import ZigGolf.Proofs.Naming.Assignment

/-!
# Short names in shortlex order

The sequence of short names lists all names made of letters, shorter ones first and names of one
length letter by letter.  A name is a number in bijective base 52: the letters stand for the digits
`1` to `52`, and there is no digit for zero.  `nameValue` reads a name as such a number, which is
strictly monotone for the shortlex order (`shortlex_iff_nameValue_lt`).  The name at place `i` is
the one of value `i + 1` (`nameValue_nameAt`), so exactly `i` names stand before it, and no name is
left out (`nameAt_enumerates`).

All of this holds for the names of up to eleven letters.  On the way to one of them the number of
names of the length that is looked at is always a 64-bit word (`Searching.block_eq`).
-/

namespace ZigGolf

/-- The letters of names, in their order. -/
def alphabet : Bytes := ascii "abcdefghijklmnopqrstuvwxyzABCDEFGHIJKLMNOPQRSTUVWXYZ"

/-- The order of letters in names. -/
def Precedes (a b : UInt8) : Prop := alphabet.idxOf a < alphabet.idxOf b

/-- The texts made of letters. -/
def IsSpelled (s : Bytes) : Prop := ∀ b ∈ s, b ∈ alphabet

/-- The names that can be made of letters. -/
def IsLetterName (s : Bytes) : Prop := s ≠ [] ∧ IsSpelled s

/-- A name as a number in bijective base 52. -/
def nameValue (s : Bytes) : Nat := s.foldl (fun n b => 52 * n + (alphabet.idxOf b + 1)) 0

/-- How many names of at most `n` letters there are. -/
def namesUpTo (n : Nat) : Nat := ∑ k ∈ Finset.range n, 52 ^ (k + 1)

variable {s t : Bytes} {i : UInt64}

/-! ### Counting names -/

/-- Names with one letter more are counted on top. -/
lemma namesUpTo_succ (n : Nat) : namesUpTo (n + 1) = namesUpTo n + 52 ^ (n + 1) :=
  Finset.sum_range_succ _ n

/-- A letter in front of every name, and by itself. -/
lemma namesUpTo_succ' (n : Nat) : namesUpTo (n + 1) = 52 * namesUpTo n + 52 := by
  induction n with
  | zero => rfl
  | succ n ih =>
    have hn := namesUpTo_succ n
    rw [namesUpTo_succ (n + 1), Nat.pow_succ']
    omega

/-- With more letters there are more names. -/
lemma namesUpTo_mono {m n : Nat} (h : m ≤ n) : namesUpTo m ≤ namesUpTo n := by
  induction h with
  | refl => exact Nat.le_refl _
  | step _ ih => exact Nat.le_trans ih (namesUpTo_succ _ ▸ Nat.le_add_right _ _)

/-- The sequence is followed as far as names have eleven letters. -/
lemma namesUpTo_eleven : namesUpTo 11 = namePlaces := by decide

/-! ### Letters -/

/-- There are 52 letters. -/
lemma length_alphabet : alphabet.length = 52 := by decide +kernel

/-- The letter of a number below 52 stands at that number in the alphabet. -/
lemma idxOf_letter : ∀ n : Fin 52, alphabet.idxOf (letter (UInt64.ofNat n)) = n := by
  decide +kernel

/-- The letter for a digit stands at that digit in the alphabet. -/
lemma idxOf_letter_mod (i : UInt64) : alphabet.idxOf (letter (i % 52)) = i.toNat % 52 := by
  have h := idxOf_letter ⟨(i % 52).toNat, toNat_mod_lt i⟩
  rw [UInt64.ofNat_toNat] at h
  exact h.trans (UInt64.toNat_mod i 52)

/-- Letters are what is found in the alphabet. -/
lemma idxOf_lt_iff {b : UInt8} : alphabet.idxOf b < 52 ↔ b ∈ alphabet := by
  rw [← length_alphabet, List.idxOf_lt_length_iff]

lemma IsSpelled.cons_iff {b : UInt8} : IsSpelled (b :: s) ↔ b ∈ alphabet ∧ IsSpelled s :=
  List.forall_mem_cons

/-! ### Names as numbers -/

/-- A last letter is the lowest digit of a name. -/
lemma nameValue_concat (s : Bytes) (b : UInt8) :
    nameValue (s ++ [b]) = 52 * nameValue s + (alphabet.idxOf b + 1) := by
  rw [nameValue, List.foldl_append, List.foldl_cons, List.foldl_nil, nameValue]

/-- The first letter counts as often as there are texts of letters behind it. -/
lemma nameValue_cons (b : UInt8) (s : Bytes) :
    nameValue (b :: s) = (alphabet.idxOf b + 1) * 52 ^ s.length + nameValue s := by
  induction s using List.reverseRecOn with
  | nil => simp [nameValue]
  | append_singleton s c ih =>
    rw [← List.cons_append, nameValue_concat, nameValue_concat, ih, List.length_append,
      List.length_singleton, Nat.pow_succ']
    ring

/-- The names of one length take up the values behind those of shorter names. -/
lemma IsSpelled.nameValue_bounds (h : IsSpelled s) :
    namesUpTo s.length < nameValue s + 52 ^ s.length ∧ nameValue s ≤ namesUpTo s.length := by
  induction s with
  | nil => exact ⟨by decide, by decide⟩
  | cons b s ih =>
    obtain ⟨hb, hs⟩ := IsSpelled.cons_iff.1 h
    obtain ⟨hlow, hhigh⟩ := ih hs
    have hlt := idxOf_lt_iff.2 hb
    have hdigit : (alphabet.idxOf b + 1) * 52 ^ s.length ≤ 52 * 52 ^ s.length :=
      Nat.mul_le_mul_right _ hlt
    have hdigit' : 52 ^ s.length ≤ (alphabet.idxOf b + 1) * 52 ^ s.length :=
      Nat.le_mul_of_pos_left _ (Nat.succ_pos _)
    rw [nameValue_cons, List.length_cons, namesUpTo_succ, Nat.pow_succ']
    omega

/-- Of two texts of the same length the first one, letter by letter, has the smaller value. -/
lemma nameValue_lt_of_lex (hs : IsSpelled s) (ht : IsSpelled t) (hlength : s.length = t.length)
    (h : List.Lex Precedes s t) : nameValue s < nameValue t := by
  induction h with
  | nil => simp at hlength
  | @cons b s t _ ih =>
    have hlength' : s.length = t.length := by simpa using hlength
    have hlt := ih (IsSpelled.cons_iff.1 hs).2 (IsSpelled.cons_iff.1 ht).2 hlength'
    rw [nameValue_cons, nameValue_cons, hlength']
    omega
  | @rel b s c t hbc =>
    have hlength' : s.length = t.length := by simpa using hlength
    obtain ⟨hlow, -⟩ := (IsSpelled.cons_iff.1 ht).2.nameValue_bounds
    obtain ⟨-, hhigh⟩ := (IsSpelled.cons_iff.1 hs).2.nameValue_bounds
    -- the greater digit outweighs all that follows
    have hdigit : (alphabet.idxOf b + 1 + 1) * 52 ^ t.length ≤
        (alphabet.idxOf c + 1) * 52 ^ t.length :=
      Nat.mul_le_mul_right _ (Nat.succ_le_succ hbc)
    rw [Nat.succ_mul] at hdigit
    rw [nameValue_cons, nameValue_cons, hlength']
    rw [hlength'] at hhigh
    omega

/-- A shorter name has a smaller value. -/
lemma nameValue_lt_of_length_lt (hs : IsSpelled s) (ht : IsSpelled t)
    (hlength : s.length < t.length) : nameValue s < nameValue t := by
  obtain ⟨n, hn⟩ : ∃ n, t.length = n + 1 := ⟨t.length - 1, by omega⟩
  obtain ⟨hlow, -⟩ := ht.nameValue_bounds
  obtain ⟨-, hhigh⟩ := hs.nameValue_bounds
  have hmono : namesUpTo s.length ≤ namesUpTo n := namesUpTo_mono (by omega)
  rw [hn, namesUpTo_succ] at hlow
  omega

/-- The value of a name grows with the shortlex order. -/
lemma nameValue_lt_of_shortlex (hs : IsSpelled s) (ht : IsSpelled t)
    (h : List.Shortlex Precedes s t) : nameValue s < nameValue t := by
  rcases List.shortlex_def.1 h with hlength | ⟨hlength, hlex⟩
  · exact nameValue_lt_of_length_lt hs ht hlength
  · exact nameValue_lt_of_lex hs ht hlength hlex

/-- Texts of the same length that differ come one before the other. -/
lemma lex_or_eq_or_lex (hs : IsSpelled s) (ht : IsSpelled t) (hlength : s.length = t.length) :
    List.Lex Precedes s t ∨ s = t ∨ List.Lex Precedes t s := by
  induction s generalizing t with
  | nil => exact .inr (.inl (List.eq_nil_of_length_eq_zero hlength.symm).symm)
  | cons b s ih =>
    obtain ⟨c, t, rfl⟩ := List.exists_cons_of_ne_nil (List.ne_nil_of_length_eq_add_one hlength.symm)
    obtain ⟨hb, hs'⟩ := IsSpelled.cons_iff.1 hs
    have ht' := (IsSpelled.cons_iff.1 ht).2
    rcases Nat.lt_trichotomy (alphabet.idxOf b) (alphabet.idxOf c) with hlt | heq | hgt
    · exact .inl (.rel hlt)
    · obtain rfl : b = c := (List.idxOf_inj hb).1 heq
      rcases ih hs' ht' (by simpa using hlength) with hlex | rfl | hlex
      · exact .inl (.cons hlex)
      · exact .inr (.inl rfl)
      · exact .inr (.inr (.cons hlex))
    · exact .inr (.inr (.rel hgt))

/-- Texts of letters that differ come one before the other. -/
lemma shortlex_or_eq_or_shortlex (hs : IsSpelled s) (ht : IsSpelled t) :
    List.Shortlex Precedes s t ∨ s = t ∨ List.Shortlex Precedes t s := by
  rcases Nat.lt_trichotomy s.length t.length with hlt | heq | hgt
  · exact .inl (.of_length_lt hlt)
  · rcases lex_or_eq_or_lex hs ht heq with hlex | rfl | hlex
    · exact .inl (.of_lex heq hlex)
    · exact .inr (.inl rfl)
    · exact .inr (.inr (.of_lex heq.symm hlex))
  · exact .inr (.inr (.of_length_lt hgt))

/-- The shortlex order is the order of values. -/
lemma shortlex_iff_nameValue_lt (hs : IsSpelled s) (ht : IsSpelled t) :
    List.Shortlex Precedes s t ↔ nameValue s < nameValue t := by
  refine ⟨nameValue_lt_of_shortlex hs ht, fun hlt => ?_⟩
  rcases shortlex_or_eq_or_shortlex hs ht with h | rfl | h
  · exact h
  · exact absurd hlt (Nat.lt_irrefl _)
  · exact absurd (nameValue_lt_of_shortlex ht hs h) (Nat.lt_asymm hlt)

/-- The value tells the name. -/
lemma eq_of_nameValue_eq (hs : IsSpelled s) (ht : IsSpelled t) (h : nameValue s = nameValue t) :
    s = t := by
  rcases shortlex_or_eq_or_shortlex hs ht with hlex | heq | hlex
  · exact absurd h (nameValue_lt_of_shortlex hs ht hlex).ne
  · exact heq
  · exact absurd h (nameValue_lt_of_shortlex ht hs hlex).ne'

/-! ### The search for the length -/

/-- The states of the search for the name at place `i`: a length, the number of names of that
length, and the place counted from the first of them.  The search goes on to the next length while
the place lies behind all names of this length. -/
inductive Searching (i : UInt64) : Nat → UInt64 → UInt64 → Prop
  | start : Searching i 1 52 i
  | longer {n : Nat} {block k : UInt64} : Searching i n block k → block ≤ k →
      Searching i (n + 1) (block * 52) (k - block)

section Search

variable {n : Nat} {block k : UInt64} (hi : i.toNat < namePlaces)
include hi

/-- The number of names of a length is counted without wrapping, and the place has lost the names of
shorter lengths. -/
lemma Searching.spec (h : Searching i n block k) :
    n ≤ 11 ∧ block.toNat = 52 ^ n ∧ i.toNat + 52 ^ n = k.toNat + namesUpTo n := by
  induction h with
  | start => exact ⟨by decide, by decide, rfl⟩
  | @longer n block k _ hle ih =>
    obtain ⟨hn, hblock, hplace⟩ := ih
    have hle' := UInt64.le_iff_toNat_le.1 hle
    have hshort : n < 11 := by
      by_contra hlong
      obtain rfl : n = 11 := by omega
      rw [namesUpTo_eleven] at hplace
      omega
    have hword : 52 ^ (n + 1) < 2 ^ 64 :=
      Nat.lt_of_le_of_lt (Nat.pow_le_pow_right (by decide) hshort) (by decide)
    have hnext : (block * 52).toNat = 52 ^ (n + 1) := by
      rw [UInt64.toNat_mul, hblock]
      exact Nat.mod_eq_of_lt hword
    refine ⟨hshort, hnext, ?_⟩
    rw [UInt64.toNat_sub_of_le _ _ hle, namesUpTo_succ]
    omega

/-- As long as a place is searched, the block is a power of 52 and has not wrapped around. -/
lemma Searching.block_eq (h : Searching i n block k) : block.toNat = 52 ^ n := (h.spec hi).2.1

/-- The search ends at the length at which the place lies among the names of that length. -/
lemma Searching.exists_locateName (h : Searching i n block k) :
    ∃ last, Searching i (locateName n block k).1 last (locateName n block k).2 ∧
      (locateName n block k).2 < last := by
  fun_induction locateName n block k with
  | case1 n block k hstop =>
    refine ⟨block, h, hstop.resolve_left fun hzero => ?_⟩
    have hpos : 0 < 52 ^ n := Nat.pow_pos (by decide)
    rw [← h.block_eq hi, hzero] at hpos
    exact absurd hpos (by decide)
  | case2 n block k hgo ih =>
    exact ih (h.longer (UInt64.not_lt.1 fun hlt => hgo (.inr hlt)))

end Search

/-! ### The name at a place -/

/-- Names are spelled with letters of the alphabet. -/
lemma isSpelled_spellName (n : Nat) (k : UInt64) : IsSpelled (spellName n k []) := by
  induction n generalizing k with
  | zero => simp [IsSpelled, spellName]
  | succ n ih =>
    intro b hb
    rw [spellName, spellName_eq_append, List.mem_append, List.mem_singleton] at hb
    rcases hb with hb | rfl
    · exact ih _ b hb
    · rw [← idxOf_lt_iff, idxOf_letter_mod]
      exact Nat.mod_lt _ (by decide)

/-- The value of a name is its place among the names of its length, counted behind the shorter
names. -/
lemma nameValue_spellName {n : Nat} {k : UInt64} (hk : k.toNat < 52 ^ n) :
    nameValue (spellName n k []) + 52 ^ n = k.toNat + namesUpTo n + 1 := by
  induction n generalizing k with
  | zero =>
    obtain hzero : k.toNat = 0 := by simpa using hk
    rw [hzero, spellName]
    decide
  | succ n ih =>
    have hdiv : (k / 52).toNat = k.toNat / 52 := UInt64.toNat_div k 52
    have hquot := ih (k := k / 52) (by rw [hdiv]; rw [Nat.pow_succ'] at hk; omega)
    rw [spellName, spellName_eq_append, nameValue_concat, idxOf_letter_mod, namesUpTo_succ',
      Nat.pow_succ']
    omega

/-- The name at a place has at most eleven letters, and its value tells the place. -/
lemma nameAt_spec (hi : i.toNat < namePlaces) :
    IsLetterName (nameAt i) ∧ (nameAt i).length ≤ 11 ∧ nameValue (nameAt i) = i.toNat + 1 := by
  obtain ⟨block, hsearch, hlt⟩ := Searching.exists_locateName hi .start
  obtain ⟨hn, hblock, hplace⟩ := hsearch.spec hi
  have hrank : (locateName 1 52 i).2.toNat < 52 ^ (locateName 1 52 i).1 := by
    rw [← hblock]
    exact UInt64.lt_iff_toNat_lt.1 hlt
  have hvalue := nameValue_spellName hrank
  refine ⟨⟨nameAt_ne_nil i, isSpelled_spellName _ _⟩, ?_, ?_⟩
  · have hlength := length_spellName (locateName 1 52 i).1 (locateName 1 52 i).2 []
    exact hlength ▸ hn
  · change nameValue (spellName (locateName 1 52 i).1 (locateName 1 52 i).2 []) = _
    omega

/-- The value of a name is one more than its place. -/
lemma nameValue_nameAt (hi : i.toNat < namePlaces) : nameValue (nameAt i) = i.toNat + 1 :=
  (nameAt_spec hi).2.2

/-- Every name of at most eleven letters is the name at the place in front of its value. -/
lemma exists_nameAt_eq (hs : IsLetterName s) (hlength : s.length ≤ 11) :
    ∃ i : UInt64, i.toNat + 1 = nameValue s ∧ i.toNat < namePlaces ∧ nameAt i = s := by
  obtain ⟨-, hhigh⟩ := hs.2.nameValue_bounds
  have hpos : 0 < nameValue s := by
    have hlt := nameValue_lt_of_length_lt (s := []) (by simp [IsSpelled]) hs.2
      (List.length_pos_iff.2 hs.1)
    omega
  have hle : nameValue s ≤ namePlaces := by
    rw [← namesUpTo_eleven]
    exact Nat.le_trans hhigh (namesUpTo_mono hlength)
  have hplace : (UInt64.ofNat (nameValue s - 1)).toNat = nameValue s - 1 := by
    rw [UInt64.toNat_ofNat', Nat.mod_eq_of_lt]
    exact Nat.lt_of_lt_of_le (Nat.sub_lt hpos Nat.one_pos) (Nat.le_trans hle (by decide))
  have hlt : (UInt64.ofNat (nameValue s - 1)).toNat < namePlaces := by omega
  obtain ⟨hname, -, hvalue⟩ := nameAt_spec hlt
  exact ⟨_, by omega, hlt, eq_of_nameValue_eq hname.2 hs.2 (by omega)⟩

/-- The names before the name at a place are those at the places before it. -/
lemma setOf_shortlex_nameAt (hi : i.toNat < namePlaces) :
    {s | IsLetterName s ∧ List.Shortlex Precedes s (nameAt i)} = nameAt '' {j | j < i} := by
  obtain ⟨hname, hlength, hvalue⟩ := nameAt_spec hi
  ext s
  constructor
  · rintro ⟨hs, hlex⟩
    have hlt := nameValue_lt_of_shortlex hs.2 hname.2 hlex
    have hshort : s.length ≤ 11 := by
      rcases List.shortlex_def.1 hlex with h | ⟨h, -⟩
      · omega
      · omega
    obtain ⟨j, hj, -, rfl⟩ := exists_nameAt_eq hs hshort
    exact ⟨j, UInt64.lt_iff_toNat_lt.2 (by omega), rfl⟩
  · rintro ⟨j, hji, rfl⟩
    have hlt := UInt64.lt_iff_toNat_lt.1 hji
    obtain ⟨hname', -, hvalue'⟩ := nameAt_spec (Nat.lt_trans hlt hi)
    exact ⟨hname', (shortlex_iff_nameValue_lt hname'.2 hname.2).2 (by omega)⟩

/-- There are as many places before a place as its number says. -/
lemma ncard_places (i : UInt64) : {j : UInt64 | j < i}.ncard = i.toNat := by
  have himage : UInt64.toNat '' {j | j < i} = ↑(Finset.range i.toNat) := by
    ext n
    rw [Finset.mem_coe, Finset.mem_range]
    constructor
    · rintro ⟨j, hji, rfl⟩
      exact UInt64.lt_iff_toNat_lt.1 hji
    · intro hn
      have hword : n < 2 ^ 64 := Nat.lt_trans hn i.toNat_lt
      have hplace : (UInt64.ofNat n).toNat = n := by
        rw [UInt64.toNat_ofNat', Nat.mod_eq_of_lt hword]
      exact ⟨UInt64.ofNat n, UInt64.lt_iff_toNat_lt.2 (hplace.trans_lt hn), hplace⟩
  rw [← Set.ncard_image_of_injective _ fun _ _ h => UInt64.toNat.inj h, himage,
    Set.ncard_coe_finset, Finset.card_range]

/-! ### Result -/

/-- The short names at the places below `52 + 52² + … + 52¹¹` are, each once, the names of one to
eleven letters, and they stand in shortlex order: the name at place `i` has `i` names before it, and
read in bijective base 52 it gives `i + 1`.  In every state of the search for it the number of names
of the length that is looked at is what it should be, and not a remainder; and the search ends where
the place lies among the names of that length. -/
theorem nameAt_enumerates :
    namesUpTo 11 = 7664255029142160644 ∧
      Set.BijOn nameAt {i | i.toNat < namesUpTo 11} {s | IsLetterName s ∧ s.length ≤ 11} ∧
      ∀ i : UInt64, i.toNat < namesUpTo 11 →
        {s | IsLetterName s ∧ List.Shortlex Precedes s (nameAt i)}.ncard = i.toNat ∧
          nameValue (nameAt i) = i.toNat + 1 ∧
          (∀ n block k, Searching i n block k → block.toNat = 52 ^ n) ∧
          ∃ block, Searching i (locateName 1 52 i).1 block (locateName 1 52 i).2 ∧
            (locateName 1 52 i).2 < block := by
  rw [namesUpTo_eleven]
  refine ⟨rfl, ⟨fun i hi => ?_, nameAt_injective.injOn, fun s hs => ?_⟩, fun i hi => ?_⟩
  · obtain ⟨hname, hlength, -⟩ := nameAt_spec hi
    exact ⟨hname, hlength⟩
  · obtain ⟨i, -, hi, hname⟩ := exists_nameAt_eq hs.1 hs.2
    exact ⟨i, hi, hname⟩
  · refine ⟨?_, nameValue_nameAt hi, fun n block k h => h.block_eq hi,
      Searching.exists_locateName hi .start⟩
    rw [setOf_shortlex_nameAt hi, Set.ncard_image_of_injective _ nameAt_injective, ncard_places]

/-- The first name of three letters has all shorter names before it. -/
theorem nameAt_enumerates_of_edge :
    nameAt 2755 = ascii "ZZ" ∧ nameAt 2756 = ascii "aaa" ∧
      {s | IsLetterName s ∧ List.Shortlex Precedes s (ascii "aaa")}.ncard = 2756 ∧
      nameValue (ascii "aaa") = 2757 := by
  obtain ⟨hbefore, hname⟩ : nameAt 2755 = ascii "ZZ" ∧ nameAt 2756 = ascii "aaa" := by
    decide +kernel
  obtain ⟨hcount, hvalue, -⟩ := nameAt_enumerates.2.2 2756 (by decide)
  rw [hname] at hcount hvalue
  exact ⟨hbefore, hname, hcount, hvalue⟩

end ZigGolf
