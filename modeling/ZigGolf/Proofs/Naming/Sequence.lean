import Mathlib.Algebra.Group.Nat.Defs
import Mathlib.Tactic.Common
import ZigGolf.Naming.Sequence
import ZigGolf.Proofs.Bytes.Class

/-!
# Short names are all different

The name at a place is found in two steps, and neither loses the place: the length of the name and
its place among the names of that length determine the place in the sequence, and the letters are
the digits of the place among the names of that length.  Since there are at least as many names of a
length as places that lead to it, no two places have the same name (`nameAt_injective`).  This holds
for all 64-bit places, also for those past the names of eleven letters, where the number of names of
a length is no 64-bit word any more.
-/

namespace ZigGolf

/-! ### Letters -/

/-- A number below 52 and its letter. -/
lemma letter_spec : ∀ i : Fin 52, isLetter (letter (UInt64.ofNat i)) = true ∧
    ∀ j : Fin 52, letter (UInt64.ofNat i) = letter (UInt64.ofNat j) → i = j := by
  decide +kernel

/-- The digits of a place are below 52. -/
lemma toNat_mod_lt (i : UInt64) : (i % 52).toNat < 52 := by
  rw [UInt64.toNat_mod]
  exact Nat.mod_lt _ (by decide)

/-- Every digit stands for a letter. -/
lemma isLetter_letter_mod (i : UInt64) : isLetter (letter (i % 52)) = true := by
  have h := (letter_spec ⟨(i % 52).toNat, toNat_mod_lt i⟩).1
  rwa [UInt64.ofNat_toNat] at h

/-- Digits are told apart by their letters. -/
lemma mod_eq_of_letter_eq {i j : UInt64} (h : letter (i % 52) = letter (j % 52)) :
    i % 52 = j % 52 := by
  have hspec := (letter_spec ⟨(i % 52).toNat, toNat_mod_lt i⟩).2 ⟨(j % 52).toNat, toNat_mod_lt j⟩
  rw [UInt64.ofNat_toNat, UInt64.ofNat_toNat] at hspec
  exact UInt64.toNat.inj (Fin.mk.inj (hspec h))

/-! ### Names of one length -/

/-- A name is spelled in front of what is there already. -/
lemma spellName_eq_append (n : Nat) (i : UInt64) (s : Bytes) :
    spellName n i s = spellName n i [] ++ s := by
  induction n generalizing i s with
  | zero => rfl
  | succ n ih =>
    rw [spellName, spellName, ih _ (_ :: s), ih _ [_]]
    simp

/-- A name is spelled with the number of letters that is asked for. -/
@[simp] lemma length_spellName (n : Nat) (i : UInt64) (s : Bytes) :
    (spellName n i s).length = n + s.length := by
  induction n generalizing i s with
  | zero => simp [spellName]
  | succ n ih =>
    rw [spellName, ih, List.length_cons]
    omega

/-- A name is spelled with letters. -/
lemma isLetter_of_mem_spellName (n : Nat) (i : UInt64) :
    ∀ b ∈ spellName n i [], isLetter b = true := by
  induction n generalizing i with
  | zero => simp [spellName]
  | succ n ih =>
    intro b hb
    rw [spellName, spellName_eq_append, List.mem_append, List.mem_singleton] at hb
    rcases hb with hb | rfl
    · exact ih _ b hb
    · exact isLetter_letter_mod i

/-- The letters of a name tell its place among the names of its length. -/
lemma eq_of_spellName_eq {n : Nat} {i j : UInt64} (hi : i.toNat < 52 ^ n) (hj : j.toNat < 52 ^ n)
    (h : spellName n i [] = spellName n j []) : i = j := by
  induction n generalizing i j with
  | zero =>
    apply UInt64.toNat.inj
    omega
  | succ n ih =>
    rw [spellName, spellName, spellName_eq_append, spellName_eq_append _ (j / 52)] at h
    obtain ⟨hfront, hlast⟩ := List.append_inj h (by simp)
    have hmod : i % 52 = j % 52 := mod_eq_of_letter_eq (List.singleton_inj.1 hlast)
    have hdiv : ∀ {k : UInt64}, k.toNat < 52 ^ (n + 1) → (k / 52).toNat < 52 ^ n := by
      intro k hk
      rw [UInt64.toNat_div]
      exact Nat.div_lt_of_lt_mul (by rw [Nat.pow_succ'] at hk; exact hk)
    have hquot : i / 52 = j / 52 := ih (hdiv hi) (hdiv hj) hfront
    -- quotient and remainder make up the number
    apply UInt64.toNat.inj
    have hmod' := congrArg UInt64.toNat hmod
    have hquot' := congrArg UInt64.toNat hquot
    rw [UInt64.toNat_mod, UInt64.toNat_mod] at hmod'
    rw [UInt64.toNat_div, UInt64.toNat_div] at hquot'
    have hi' := Nat.div_add_mod i.toNat (52 : UInt64).toNat
    have hj' := Nat.div_add_mod j.toNat (52 : UInt64).toNat
    rw [← hi', ← hj', hmod', hquot']

/-! ### Lengths -/

/-- The search for the length only goes up. -/
lemma le_locateName (n : Nat) (block i : UInt64) : n ≤ (locateName n block i).1 := by
  fun_induction locateName n block i with
  | case1 => exact Nat.le_refl _
  | case2 n block i h ih => omega

/-- The length and the place among the names of that length tell the place in the sequence. -/
lemma eq_of_locateName_eq {n : Nat} {block i j : UInt64}
    (h : locateName n block i = locateName n block j) : i = j := by
  induction hm : i.toNat using Nat.strongRecOn generalizing n block i j with
  | _ m ih =>
    rw [locateName.eq_def n block i, locateName.eq_def n block j] at h
    split at h
    · split at h
      · exact (Prod.mk.inj h).2
      · have hle := le_locateName (n + 1) (block * 52) (j - block)
        rw [← h] at hle
        exact absurd hle (by simp)
    · next hi =>
      split at h
      · have hle := le_locateName (n + 1) (block * 52) (i - block)
        rw [h] at hle
        exact absurd hle (by simp)
      · have hsmaller : (i - block).toNat < m := by
          have hblock : block ≠ 0 := fun h' => hi (.inl h')
          have hle : block ≤ i := UInt64.not_lt.1 fun h' => hi (.inr h')
          have hpos : 0 < block.toNat := Nat.pos_of_ne_zero fun h' => hblock (UInt64.toNat.inj h')
          rw [UInt64.toNat_sub_of_le _ _ hle]
          have := UInt64.le_iff_toNat_le.1 hle
          omega
        have hsub := ih _ hsmaller h rfl
        rwa [UInt64.sub_left_inj] at hsub

/-- A later place leads to names at least as long. -/
lemma locateName_mono {n : Nat} {block i j : UInt64} (h : i ≤ j) :
    (locateName n block i).1 ≤ (locateName n block j).1 := by
  fun_induction locateName n block i generalizing j with
  | case1 n block i hstop => exact le_locateName n block j
  | case2 n block i hgo ih =>
    have hle : block ≤ i := UInt64.not_lt.1 fun h' => hgo (.inr h')
    have hle' : block ≤ j := UInt64.le_trans hle h
    have hgo' : ¬ (block = 0 ∨ j < block) := by
      rintro (hzero | hlt)
      · exact hgo (.inl hzero)
      · exact UInt64.not_lt.2 hle' hlt
    rw [locateName.eq_def n block j, if_neg hgo']
    apply ih
    have hij := UInt64.le_iff_toNat_le.1 h
    rw [UInt64.le_iff_toNat_le, UInt64.toNat_sub_of_le _ _ hle, UInt64.toNat_sub_of_le _ _ hle']
    omega

/-- There are at least as many names of a length as places that lead to it. -/
lemma locateName_lt {n : Nat} {block : UInt64} (h : block.toNat = 52 ^ n ∨ 2 ^ 64 ≤ 52 ^ n)
    (i : UInt64) : (locateName n block i).2.toNat < 52 ^ (locateName n block i).1 := by
  fun_induction locateName n block i with
  | case1 n block i hstop =>
    rcases h with hblock | hlarge
    · rcases hstop with rfl | hlt
      · exact absurd hblock.symm (Nat.pos_iff_ne_zero.1 (Nat.pow_pos (by decide)))
      · rw [← hblock]
        exact UInt64.lt_iff_toNat_lt.1 hlt
    · exact Nat.lt_of_lt_of_le i.toNat_lt hlarge
  | case2 n block i hgo ih =>
    apply ih
    -- the number of names of the next length is a word, or more than there are words
    rcases h with hblock | hlarge
    · by_cases hword : 52 ^ (n + 1) < 2 ^ 64
      · left
        rw [UInt64.toNat_mul, hblock]
        exact Nat.mod_eq_of_lt hword
      · exact .inr (Nat.le_of_not_lt hword)
    · exact .inr (Nat.le_trans hlarge (Nat.pow_le_pow_right (by decide) (Nat.le_succ n)))

/-! ### Names -/

/-- No two places of the sequence have the same name. -/
theorem nameAt_injective : Function.Injective nameAt := by
  intro i j hname
  have h : spellName (locateName 1 52 i).1 (locateName 1 52 i).2 [] =
      spellName (locateName 1 52 j).1 (locateName 1 52 j).2 [] := hname
  have hi := @locateName_lt 1 52 (.inl rfl) i
  have hj := @locateName_lt 1 52 (.inl rfl) j
  have hlength : (locateName 1 52 i).1 = (locateName 1 52 j).1 := by
    simpa using congrArg List.length h
  rw [← hlength] at h hj
  have hrank := eq_of_spellName_eq hi hj h
  exact eq_of_locateName_eq (Prod.ext hlength hrank)

/-- Names come in the order of their lengths. -/
lemma length_nameAt_mono {i j : UInt64} (h : i ≤ j) : (nameAt i).length ≤ (nameAt j).length := by
  have hle := @locateName_mono 1 52 i j h
  simpa [nameAt] using hle

/-- A short name is not empty and made of letters. -/
lemma isLetter_of_mem_nameAt (i : UInt64) : ∀ b ∈ nameAt i, isLetter b = true :=
  isLetter_of_mem_spellName _ _

/-- No name of the sequence is empty. -/
lemma nameAt_ne_nil (i : UInt64) : nameAt i ≠ [] := by
  have hle := le_locateName 1 52 i
  rw [← List.length_pos_iff, nameAt, length_spellName]
  omega

/-- A short name can stand as an identifier without quotes. -/
lemma isPlainName_nameAt (i : UInt64) : isPlainName (nameAt i) = true := by
  obtain ⟨b, s, hs⟩ := List.exists_cons_of_ne_nil (nameAt_ne_nil i)
  have hletter := isLetter_of_mem_nameAt i
  rw [hs] at hletter ⊢
  have hstart : ∀ c ∈ b :: s, isNameStart c = true := by
    intro c hc
    simp [isNameStart, hletter c hc]
  rw [isPlainName, hstart b List.mem_cons_self, Bool.true_and, List.all_eq_true]
  exact fun c hc => isNamePart_of_isNameStart c (hstart c (List.mem_cons_of_mem b hc))

end ZigGolf
