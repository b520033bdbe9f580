import ZigGolf.Naming.Renaming
import ZigGolf.Proofs.Naming.Sequence

/-!
# Renaming keeps names apart

A renaming is used one name at a time, and `Renaming.rename_cases` says all that can happen then:
the name has a fixed meaning, it was met before, it is an integer type, or it is given the next
short name that is not taken.  From this it follows, over any number of names, that short names are
names that can be written without quotes and are never taken (`Renaming.Proper`), and, as long as
the places of short names do not run out, that they are all different (`Renaming.Distinct`).

A name is settled when it has got its spelling for good: from then on renaming it changes nothing,
whatever names are met in between.
-/

namespace ZigGolf

/-! ### Names that are not given -/

/-- A name with a fixed meaning is a plain name and no integer type of a given width. -/
lemma fixedNames_spec : ∀ name ∈ fixedNames, isPlainName name = true ∧ isSizedInt name = false := by
  decide

/-- No name with a fixed meaning is a keyword. -/
lemma fixedNames_disjoint_keywordSpellings : ∀ name ∈ fixedNames, name ∉ keywordSpellings := by
  decide +kernel

/-- No keyword is an integer type of a given width. -/
lemma isSizedInt_eq_false_of_mem : ∀ name ∈ keywordSpellings, isSizedInt name = false := by
  decide

/-- A type of pointer size has a fixed meaning, and the type that it is on 64-bit targets is an
integer type like any other. -/
lemma pointerAliases_spec : ∀ p ∈ pointerAliases,
    p.1 ∈ fixedNames ∧ p.1 ≠ entryPoint ∧ p.2 ∉ fixedNames ∧ isSizedInt p.2 = true ∧
      fixedSpelling true p.1 = p.2 := by
  decide

/-- No two types of pointer size are the same integer type. -/
lemma pointerAliases_injective :
    ∀ p ∈ pointerAliases, ∀ q ∈ pointerAliases, p.2 = q.2 → p.1 = q.1 := by
  decide

/-- There are at most 82 names that no other name may be given. -/
lemma length_takenNames_le : ∀ ptr64 : Bool, (takenNames ptr64).length ≤ 82 := by decide

/-- No name is written as a keyword. -/
lemma keywordSpellings_subset (ptr64 : Bool) : keywordSpellings ⊆ takenNames ptr64 := by
  intro name h
  cases ptr64 <;> simp [takenNames, h]

/-- No name is written as one with a fixed meaning. -/
lemma fixedNames_subset (ptr64 : Bool) : fixedNames ⊆ takenNames ptr64 := by
  intro name h
  cases ptr64 <;> simp [takenNames, h]

/-- The names that are taken are the keywords and the reserved names. -/
lemma mem_takenNames_iff {ptr64 : Bool} {name : Bytes} :
    name ∈ takenNames ptr64 ↔ name ∈ keywordSpellings ∨ isReserved ptr64 name = true := by
  cases ptr64 with
  | false => simp [takenNames, isReserved]
  | true =>
    have halias : name ∈ pointerAliases.map (·.2) ↔
        pointerAliases.any (fun p => p.2 == name) = true := by
      simp only [List.mem_map, List.any_eq_true, beq_iff_eq]
    simp only [takenNames, isReserved, ↓reduceIte, List.mem_append, halias, List.contains_eq_mem,
      Bool.or_eq_true, Bool.and_eq_true, decide_eq_true_eq, true_and, or_assoc]

/-- A name that may be given is not reserved. -/
lemma isReserved_eq_false_of_notMem {ptr64 : Bool} {name : Bytes} (h : name ∉ takenNames ptr64) :
    isReserved ptr64 name = false := by
  rw [mem_takenNames_iff, not_or, Bool.not_eq_true] at h
  exact h.2

/-- An integer type of a given width is written as a plain name. -/
lemma isPlainName_of_isSizedInt {name : Bytes} (h : isSizedInt name = true) :
    isPlainName name = true := by
  match name, h with
  | sign :: digit :: rest, h =>
    simp only [isSizedInt, Bool.and_eq_true, Bool.or_eq_true, beq_iff_eq, List.all_eq_true] at h
    obtain ⟨⟨hsign, hdigit⟩, hrest⟩ := h
    have hstart : isNameStart sign = true := by rcases hsign with rfl | rfl <;> rfl
    simp only [isPlainName, hstart, List.all_cons, isNamePart_of_isDigit digit hdigit,
      Bool.true_and, List.all_eq_true]
    exact fun b hb => isNamePart_of_isDigit b (hrest b hb)

/-- A name is written as it is, but for a type of pointer size on 64-bit targets. -/
lemma fixedSpelling_cases (ptr64 : Bool) (name : Bytes) :
    fixedSpelling ptr64 name = name ∨
      ptr64 = true ∧ (name, fixedSpelling ptr64 name) ∈ pointerAliases := by
  cases ptr64 with
  | false => exact .inl rfl
  | true =>
    cases hlookup : pointerAliases.lookup name with
    | none => exact .inl (by simp [fixedSpelling, hlookup])
    | some spelling =>
      have hmem : (name, spelling) ∈ pointerAliases := by
        obtain ⟨before, behind, hsplit, -⟩ := List.lookup_eq_some_iff.1 hlookup
        simp [hsplit]
      exact .inr ⟨rfl, by simpa [fixedSpelling, hlookup] using hmem⟩

/-- A name with a fixed meaning is written as a plain name that is no keyword. -/
lemma isPlainName_fixedSpelling (ptr64 : Bool) {name : Bytes} (h : name ∈ fixedNames) :
    isPlainName (fixedSpelling ptr64 name) = true ∧
      fixedSpelling ptr64 name ∉ keywordSpellings := by
  rcases fixedSpelling_cases ptr64 name with heq | ⟨-, halias⟩
  · rw [heq]
    exact ⟨(fixedNames_spec name h).1, fixedNames_disjoint_keywordSpellings name h⟩
  · obtain ⟨-, -, -, hsized, -⟩ := pointerAliases_spec _ halias
    refine ⟨isPlainName_of_isSizedInt hsized, fun hmem => ?_⟩
    exact absurd hsized (by simp [isSizedInt_eq_false_of_mem _ hmem])

/-- A short name is no integer type: it has no digit. -/
lemma isSizedInt_nameAt (i : UInt64) : isSizedInt (nameAt i) = false := by
  have hletter := isLetter_of_mem_nameAt i
  have hdigit : ∀ b, isLetter b = true → isDigit b = false :=
    fun b hb => isDigit_eq_false_of_isNameStart b (by simp [isNameStart, hb])
  generalize nameAt i = name at hletter ⊢
  rcases name with _ | ⟨sign, _ | ⟨digit, rest⟩⟩
  · rfl
  · rfl
  · simp [isSizedInt, hdigit digit (hletter digit (by simp))]

/-! ### Free places -/

/-- Counting on from the next place is counting one more from here. -/
lemma add_one_add_ofNat (i : UInt64) (n : Nat) :
    i + 1 + UInt64.ofNat n = i + UInt64.ofNat (n + 1) := by
  rw [UInt64.ofNat_add, UInt64.add_assoc, UInt64.add_comm 1]
  rfl

/-- The search for a free place skips no more places than there are taken names, only places of
taken names, and it ends at a name that is not taken. -/
lemma freePlace_spec (taken : List Bytes) (i : UInt64) (hlength : taken.length < 2 ^ 64) :
    ∃ n ≤ taken.length, freePlace taken i = i + UInt64.ofNat n ∧
      nameAt (freePlace taken i) ∉ taken ∧ ∀ m < n, nameAt (i + UInt64.ofNat m) ∈ taken := by
  fun_induction freePlace taken i with
  | case1 taken i hmem ih =>
    have herase : (taken.erase (nameAt i)).length + 1 = taken.length := by
      rw [List.length_erase_of_mem hmem]
      have := List.length_pos_of_mem hmem
      omega
    obtain ⟨n, hn, hplace, hfree, hskipped⟩ := ih (by omega)
    refine ⟨n + 1, by omega, by rw [hplace, add_one_add_ofNat], ?_, ?_⟩
    · -- the place found is a later one, so its name is not the one that was dropped
      intro htaken
      refine hfree ((List.mem_erase_of_ne ?_).2 htaken)
      intro heq
      have hi : i + UInt64.ofNat (n + 1) = i := by
        rw [← add_one_add_ofNat, ← hplace]
        exact nameAt_injective heq
      have hzero := congrArg UInt64.toNat (UInt64.add_eq_left.1 hi)
      rw [UInt64.toNat_ofNat', Nat.mod_eq_of_lt (by omega)] at hzero
      exact absurd hzero (by simp)
    · intro m hm
      cases m with
      | zero => simpa using hmem
      | succ m =>
        rw [← add_one_add_ofNat]
        exact List.mem_of_mem_erase (hskipped m (by omega))
  | case2 taken i hmem => exact ⟨0, Nat.zero_le _, by simp, hmem, by simp⟩

namespace Renaming

variable {r : Renaming} {name : Bytes}

/-! ### One name -/

/-- The place of the short name that is given next. -/
def nextPlace (r : Renaming) : UInt64 := freePlace (takenNames r.ptr64) r.cursor

/-- The renaming after the next short name has been given to a name. -/
def assign (r : Renaming) (name : Bytes) : Renaming :=
  { r with
    assigned := r.assigned.insert name (nameAt r.nextPlace)
    cursor := r.nextPlace + 1 }

/-- The next short name stands not far behind the cursor, and it may be given. -/
lemma nextPlace_spec (r : Renaming) :
    (∃ n ≤ 82, r.nextPlace = r.cursor + UInt64.ofNat n) ∧
      nameAt r.nextPlace ∉ takenNames r.ptr64 := by
  have hlength := length_takenNames_le r.ptr64
  obtain ⟨n, hn, hplace, hfree, -⟩ := freePlace_spec (takenNames r.ptr64) r.cursor (by omega)
  exact ⟨⟨n, by omega, hplace⟩, hfree⟩

/-- A name that is given the next short name has it from then on, and all others keep theirs. -/
@[simp] lemma getElem?_assign (r : Renaming) (name other : Bytes) :
    (r.assign name).assigned[other]? =
      if name = other then some (nameAt r.nextPlace) else r.assigned[other]? := by
  rw [assign, Std.TreeMap.getElem?_insert]
  simp

/-- A name with a fixed meaning has a spelling of its own. -/
lemma rename_of_fixed (hfixed : name ∈ fixedNames) :
    r.rename name = (fixedSpelling r.ptr64 name, r) := by
  simp [rename, hfixed]

/-- A name that has a short name keeps it. -/
lemma rename_of_assigned (hfixed : name ∉ fixedNames) {short : Bytes}
    (h : r.assigned[name]? = some short) : r.rename name = (short, r) := by
  simp [rename, hfixed, h]

/-- An integer type of a given width is written as it is. -/
lemma rename_of_sized (hfixed : name ∉ fixedNames) (h : r.assigned[name]? = none)
    (hsized : isSizedInt name = true) : r.rename name = (name, r) := by
  simp [rename, hfixed, h, hsized]

/-- Any other name is given the next short name. -/
lemma rename_of_new (hfixed : name ∉ fixedNames) (h : r.assigned[name]? = none)
    (hsized : isSizedInt name = false) : r.rename name = (nameAt r.nextPlace, r.assign name) := by
  simp [rename, hfixed, h, hsized, nextPlace, assign]

/-- All that can happen to a name. -/
lemma rename_cases (r : Renaming) (name : Bytes) :
    (name ∈ fixedNames ∧ r.rename name = (fixedSpelling r.ptr64 name, r)) ∨
      (name ∉ fixedNames ∧ ∃ short, r.assigned[name]? = some short ∧
        r.rename name = (short, r)) ∨
      (name ∉ fixedNames ∧ r.assigned[name]? = none ∧ isSizedInt name = true ∧
        r.rename name = (name, r)) ∨
      (name ∉ fixedNames ∧ r.assigned[name]? = none ∧ isSizedInt name = false ∧
        r.rename name = (nameAt r.nextPlace, r.assign name)) := by
  by_cases hfixed : name ∈ fixedNames
  · exact .inl ⟨hfixed, rename_of_fixed hfixed⟩
  cases h : r.assigned[name]? with
  | some short => exact .inr (.inl ⟨hfixed, short, rfl, rename_of_assigned hfixed h⟩)
  | none =>
    cases hsized : isSizedInt name with
    | true => exact .inr (.inr (.inl ⟨hfixed, rfl, rfl, rename_of_sized hfixed h hsized⟩))
    | false => exact .inr (.inr (.inr ⟨hfixed, rfl, rfl, rename_of_new hfixed h hsized⟩))

/-- Renaming does not change the size of pointers. -/
@[simp] lemma ptr64_rename (r : Renaming) (name : Bytes) : (r.rename name).2.ptr64 = r.ptr64 := by
  rcases r.rename_cases name with ⟨-, h⟩ | ⟨-, short, -, h⟩ | ⟨-, -, -, h⟩ | ⟨-, -, -, h⟩
  all_goals rw [h]
  rfl

/-! ### Any number of names -/

/-- A short name as it may be given to a name: the name is one that a program has chosen, and the
short name is one of the sequence that is not taken. -/
structure IsEntry (ptr64 : Bool) (name short : Bytes) : Prop where
  notMem_fixedNames : name ∉ fixedNames
  isSizedInt_eq_false : isSizedInt name = false
  exists_place : ∃ i, short = nameAt i
  notMem_takenNames : short ∉ takenNames ptr64

/-- The renamings whose short names are all as they may be given. -/
def Proper (r : Renaming) : Prop :=
  ∀ {name short : Bytes}, r.assigned[name]? = some short → IsEntry r.ptr64 name short

/-- At the start no short name has been given. -/
lemma proper_empty (ptr64 : Bool) : Proper { ptr64 } := by
  intro name short h
  simp at h

/-- The only entry that is new is that of the name. -/
lemma eq_or_of_getElem?_assign {other short : Bytes}
    (h : (r.assign name).assigned[other]? = some short) :
    (name = other ∧ short = nameAt r.nextPlace) ∨ r.assigned[other]? = some short := by
  rw [getElem?_assign] at h
  split at h
  · next heq => exact .inl ⟨heq, (Option.some.inj h).symm⟩
  · exact .inr h

/-- Short names stay as they may be given, whatever name is met. -/
lemma Proper.rename (h : r.Proper) (name : Bytes) : (r.rename name).2.Proper := by
  rcases r.rename_cases name with ⟨-, hr⟩ | ⟨-, short, -, hr⟩ | ⟨-, -, -, hr⟩ |
    ⟨hfixed, -, hsized, hr⟩
  · rwa [hr]
  · rwa [hr]
  · rwa [hr]
  · rw [hr]
    intro other short hother
    rcases eq_or_of_getElem?_assign hother with ⟨rfl, rfl⟩ | hold
    · exact ⟨hfixed, hsized, ⟨_, rfl⟩, r.nextPlace_spec.2⟩
    · exact h hold

/-- Whatever a name is, it is written as a plain name that is no keyword. -/
lemma Proper.isPlainName_rename (h : r.Proper) (name : Bytes) :
    isPlainName (r.rename name).1 = true ∧ (r.rename name).1 ∉ keywordSpellings := by
  have hkeyword := keywordSpellings_subset r.ptr64
  rcases r.rename_cases name with ⟨hfixed, hr⟩ | ⟨-, short, hshort, hr⟩ | ⟨-, -, hsized, hr⟩ |
    ⟨-, -, -, hr⟩
  · rw [hr]
    exact isPlainName_fixedSpelling r.ptr64 hfixed
  · rw [hr]
    obtain ⟨i, rfl⟩ := (h hshort).exists_place
    exact ⟨isPlainName_nameAt i, fun hmem => (h hshort).notMem_takenNames (hkeyword hmem)⟩
  · rw [hr]
    refine ⟨isPlainName_of_isSizedInt hsized, fun hmem => ?_⟩
    exact absurd hsized (by simp [isSizedInt_eq_false_of_mem name hmem])
  · rw [hr]
    exact ⟨isPlainName_nameAt _, fun hmem => r.nextPlace_spec.2 (hkeyword hmem)⟩

/-- The renamings that have met at most `n` names and have given no short name twice: the short
names given stand before the cursor. -/
structure Distinct (n : Nat) (r : Renaming) : Prop where
  cursor_le : r.cursor.toNat ≤ 83 * n
  exists_place_lt : ∀ {name short : Bytes}, r.assigned[name]? = some short →
    ∃ i : UInt64, i.toNat < r.cursor.toNat ∧ short = nameAt i
  injective : ∀ {name other short : Bytes}, r.assigned[name]? = some short →
    r.assigned[other]? = some short → name = other

/-- At the start no short name has been given twice. -/
lemma distinct_empty (ptr64 : Bool) : Distinct 0 { ptr64 } := by
  constructor <;> simp

/-- The next short name stands at or behind the cursor, and not far from it. -/
lemma Distinct.nextPlace_spec {n : Nat} (h : r.Distinct n) (hn : n < 2 ^ 32) :
    r.cursor.toNat ≤ r.nextPlace.toNat ∧ (r.nextPlace + 1).toNat = r.nextPlace.toNat + 1 ∧
      r.nextPlace.toNat + 1 ≤ 83 * (n + 1) := by
  have hcursor := h.cursor_le
  obtain ⟨⟨m, hm, hplace⟩, -⟩ := r.nextPlace_spec
  have hnext : r.nextPlace.toNat = r.cursor.toNat + m := by
    rw [hplace, UInt64.toNat_add, UInt64.toNat_ofNat', Nat.mod_eq_of_lt (a := m) (by omega),
      Nat.mod_eq_of_lt (by omega)]
  refine ⟨by omega, ?_, by omega⟩
  rw [UInt64.toNat_add]
  exact Nat.mod_eq_of_lt (by rw [UInt64.toNat_one]; omega)

/-- A short name that is given is none of those given before. -/
lemma Distinct.getElem?_ne_nextPlace {n : Nat} (h : r.Distinct n) (hn : n < 2 ^ 32)
    (other : Bytes) : r.assigned[other]? ≠ some (nameAt r.nextPlace) := by
  intro hother
  obtain ⟨i, hi, heq⟩ := h.exists_place_lt hother
  rw [← nameAt_injective heq] at hi
  have := (h.nextPlace_spec hn).1
  omega

/-- The number of names met is an upper bound only. -/
lemma Distinct.succ {n : Nat} (h : r.Distinct n) : r.Distinct (n + 1) := by
  refine ⟨?_, h.exists_place_lt, h.injective⟩
  have := h.cursor_le
  omega

/-- Whatever name is met, no short name is given twice. -/
lemma Distinct.rename {n : Nat} (h : r.Distinct n) (hn : n < 2 ^ 32) (name : Bytes) :
    (r.rename name).2.Distinct (n + 1) := by
  have hmore := h.succ
  rcases r.rename_cases name with ⟨-, hr⟩ | ⟨-, short, -, hr⟩ | ⟨-, -, -, hr⟩ |
    ⟨hfixed, -, hsized, hr⟩
  · rwa [hr]
  · rwa [hr]
  · rwa [hr]
  · rw [hr]
    change (r.assign name).Distinct (n + 1)
    obtain ⟨hle, hsucc, hbound⟩ := h.nextPlace_spec hn
    have hnew := h.getElem?_ne_nextPlace hn
    have hcursor : (r.assign name).cursor.toNat = r.nextPlace.toNat + 1 := hsucc
    refine ⟨by omega, ?_, ?_⟩
    · intro other short hother
      rcases eq_or_of_getElem?_assign hother with ⟨-, rfl⟩ | hold
      · exact ⟨r.nextPlace, by omega, rfl⟩
      · obtain ⟨i, hi, heq⟩ := h.exists_place_lt hold
        exact ⟨i, by omega, heq⟩
    · intro a b short ha hb
      rcases eq_or_of_getElem?_assign ha with ⟨rfl, rfl⟩ | ha
      · rcases eq_or_of_getElem?_assign hb with ⟨rfl, -⟩ | hb
        · rfl
        · exact absurd hb (hnew b)
      · rcases eq_or_of_getElem?_assign hb with ⟨-, rfl⟩ | hb
        · exact absurd ha (hnew a)
        · exact h.injective ha hb

/-! ### Settled names -/

/-- A name that has got its spelling: renaming it again changes nothing. -/
def Settled (r : Renaming) (name spelling : Bytes) : Prop := r.rename name = (spelling, r)

/-- How a settled name is written. -/
lemma settled_iff {spelling : Bytes} :
    r.Settled name spelling ↔
      (name ∈ fixedNames ∧ spelling = fixedSpelling r.ptr64 name) ∨
        (name ∉ fixedNames ∧ r.assigned[name]? = some spelling) ∨
        (name ∉ fixedNames ∧ r.assigned[name]? = none ∧ isSizedInt name = true ∧
          spelling = name) := by
  unfold Settled
  rcases r.rename_cases name with ⟨hfixed, hr⟩ | ⟨hfixed, short, hshort, hr⟩ |
    ⟨hfixed, hnone, hsized, hr⟩ | ⟨hfixed, hnone, hsized, hr⟩
  · simp [hr, hfixed, eq_comm (a := spelling)]
  · simp [hr, hfixed, hshort]
  · simp [hr, hfixed, hnone, hsized, eq_comm (a := spelling)]
  · have hne : r.assign name ≠ r := by
      intro heq
      have hnew := r.getElem?_assign name name
      rw [heq, hnone] at hnew
      simp at hnew
    simp [hr, hfixed, hnone, hsized, hne]

/-- Renaming a name settles it. -/
lemma settled_rename (r : Renaming) (name : Bytes) :
    (r.rename name).2.Settled name (r.rename name).1 := by
  rcases r.rename_cases name with ⟨-, hr⟩ | ⟨-, short, -, hr⟩ | ⟨-, -, -, hr⟩ | ⟨hfixed, -, -, hr⟩
  · rw [hr]; exact hr
  · rw [hr]; exact hr
  · rw [hr]; exact hr
  · rw [hr]
    exact settled_iff.2 (.inr (.inl ⟨hfixed, by simp⟩))

/-- A settled name stays settled whatever name is met next. -/
lemma Settled.rename {spelling : Bytes} (h : r.Settled name spelling) (other : Bytes) :
    (r.rename other).2.Settled name spelling := by
  rcases r.rename_cases other with ⟨-, hr⟩ | ⟨-, short, -, hr⟩ | ⟨-, -, -, hr⟩ |
    ⟨-, hnone, hsized, hr⟩
  · rwa [hr]
  · rwa [hr]
  · rwa [hr]
  · rw [hr]
    rcases settled_iff.1 h with hfixed | ⟨hfixed, hassigned⟩ | ⟨hfixed, hnot, hsized', hspelling⟩
    · exact settled_iff.2 (.inl hfixed)
    · have hne : other ≠ name := by
        rintro rfl
        rw [hnone] at hassigned
        simp at hassigned
      exact settled_iff.2 (.inr (.inl ⟨hfixed, by simp [hne, hassigned]⟩))
    · have hne : other ≠ name := by
        rintro rfl
        rw [hsized] at hsized'
        simp at hsized'
      exact settled_iff.2 (.inr (.inr ⟨hfixed, by simp [hne, hnot], hsized', hspelling⟩))

end Renaming

end ZigGolf
