import Mathlib.Data.Finset.Dedup
import Mathlib.Data.Finset.Card
import ZigGolf.Proofs.Naming.Shortlex

/-!
# The search for a free short name

A short name is found by taking names from the sequence until one is neither a keyword nor reserved.
`Search` is that loop, with the number of names that it takes.  Nothing in the loop counts down.  It
ends because all names of the sequence are different and made of letters, and only so many keywords
and reserved names are made of letters (`length_le_card_letterSpellings`).

The same bound holds over the whole life of a renaming.  Every place in front of the cursor holds a
name that was given or one that was passed over, so the cursor is ahead of the number of names given
by the number of names passed over (`search_bounded`).
-/

namespace ZigGolf

/-- The names that the search passes over. -/
def isPassedOver (ptr64 : Bool) (name : Bytes) : Bool :=
  (Keyword.ofSpelling? name).isSome || isReserved ptr64 name

/-- The keywords and reserved names that are made of letters only. -/
def letterSpellings (ptr64 : Bool) : Finset Bytes :=
  ((takenNames ptr64).filter fun name => name.all isLetter).toFinset

/-- The loop that takes names from a supply until it finds one that it does not pass over: how many
names it takes, the one that it finds, and what is left of the supply. -/
inductive Search (ptr64 : Bool) : NameSupply → Nat → Bytes → NameSupply → Prop
  | found {supply : NameSupply} : isPassedOver ptr64 supply.next.1 = false →
      Search ptr64 supply 1 supply.next.1 supply.next.2
  | pass {supply last : NameSupply} {n : Nat} {short : Bytes} :
      isPassedOver ptr64 supply.next.1 = true → Search ptr64 supply.next.2 n short last →
      Search ptr64 supply (n + 1) short last

variable {ptr64 : Bool}

/-! ### Names that are passed over -/

/-- The names that are passed over are the keywords and the reserved names. -/
lemma isPassedOver_iff {name : Bytes} :
    isPassedOver ptr64 name = true ↔ name ∈ takenNames ptr64 := by
  have hkeyword : (Keyword.ofSpelling? name).isSome = true ↔ name ∈ keywordSpellings := by
    rw [Option.isSome_iff_ne_none, ne_eq, Keyword.ofSpelling?_eq_none_iff, not_not]
  rw [isPassedOver, Bool.or_eq_true, hkeyword, mem_takenNames_iff]

/-- Those among them that can come up at all are made of letters. -/
lemma mem_letterSpellings_iff {name : Bytes} :
    name ∈ letterSpellings ptr64 ↔
      isPassedOver ptr64 name = true ∧ ∀ b ∈ name, isLetter b = true := by
  rw [letterSpellings, List.mem_toFinset, List.mem_filter, isPassedOver_iff, List.all_eq_true]

/-- Behind a place, no more names are passed over than there are such spellings of letters only:
names at different places are different. -/
lemma length_le_card_letterSpellings (i : UInt64) {offsets : List Nat} (hnodup : offsets.Nodup)
    (hlt : ∀ m ∈ offsets, m < 2 ^ 64)
    (h : ∀ m ∈ offsets, isPassedOver ptr64 (nameAt (i + UInt64.ofNat m)) = true) :
    offsets.length ≤ (letterSpellings ptr64).card := by
  have hplaces : (offsets.map fun m => nameAt (i + UInt64.ofNat m)).Nodup := by
    refine hnodup.map_on fun m hm n hn heq => ?_
    have hwords := congrArg UInt64.toNat ((UInt64.add_right_inj i).1 (nameAt_injective heq))
    rwa [UInt64.toNat_ofNat', UInt64.toNat_ofNat', Nat.mod_eq_of_lt (hlt m hm),
      Nat.mod_eq_of_lt (hlt n hn)] at hwords
  have hnames : (offsets.map fun m => nameAt (i + UInt64.ofNat m)).toFinset ⊆
      letterSpellings ptr64 := by
    intro name hname
    obtain ⟨m, hm, rfl⟩ := List.mem_map.1 (List.mem_toFinset.1 hname)
    exact mem_letterSpellings_iff.2 ⟨h m hm, isLetter_of_mem_nameAt _⟩
  calc offsets.length = (offsets.map fun m => nameAt (i + UInt64.ofNat m)).toFinset.card := by
        rw [List.toFinset_card_of_nodup hplaces, List.length_map]
    _ ≤ (letterSpellings ptr64).card := Finset.card_le_card hnames

/-- In front of the first keyword or reserved name of letters, all names of the sequence are free.
-/
lemma isPassedOver_nameAt_eq_false {place : UInt64} (hplace : place.toNat < namePlaces)
    (h : ∀ name ∈ takenNames ptr64, name.length ≤ (nameAt place).length →
      (∀ b ∈ name, isLetter b = true) → place.toNat < nameValue name)
    {i : UInt64} (hi : i < place) : isPassedOver ptr64 (nameAt i) = false := by
  have hlt := UInt64.lt_iff_toNat_lt.1 hi
  rw [← Bool.not_eq_true, isPassedOver_iff]
  intro htaken
  have hvalue := h _ htaken (length_nameAt_mono (UInt64.le_of_lt hi)) (isLetter_of_mem_nameAt _)
  rw [nameValue_nameAt (by omega)] at hvalue
  omega

/-! ### Counting names -/

/-- The first names of the sequence are free or passed over. -/
lemma length_freeNames_add_countP (ptr64 : Bool) (n : Nat) :
    (freeNames ptr64 n).length +
        ((List.range n).map fun i => nameAt (UInt64.ofNat i)).countP (isPassedOver ptr64) = n := by
  have hfree : freeNames ptr64 n = ((List.range n).map fun i => nameAt (UInt64.ofNat i)).filter
      fun name => !isPassedOver ptr64 name := by
    simp only [freeNames, isPassedOver, Bool.not_or, Option.not_isSome]
  have hsplit := List.length_eq_length_filter_add
    (l := (List.range n).map fun i => nameAt (UInt64.ofNat i)) (isPassedOver ptr64)
  rw [List.length_map, List.length_range, ← hfree, ← List.countP_eq_length_filter] at hsplit
  omega

/-- Among the first names of the sequence, only so many are passed over. -/
lemma countP_le_card_letterSpellings (ptr64 : Bool) {n : Nat} (hn : n ≤ 2 ^ 64) :
    ((List.range n).map fun i => nameAt (UInt64.ofNat i)).countP (isPassedOver ptr64) ≤
      (letterSpellings ptr64).card := by
  rw [List.countP_map, List.countP_eq_length_filter]
  refine length_le_card_letterSpellings 0 (List.nodup_range.filter _) (fun m hm => ?_) ?_
  · have hm := List.mem_range.1 (List.mem_filter.1 hm).1
    omega
  · intro m hm
    rw [UInt64.zero_add]
    exact (List.mem_filter.1 hm).2

/-- As long as no name of the sequence is passed over, the cursor counts the names that were given
one. -/
lemma cursor_renameAll_of_free {names : List Bytes} (hlength : names.length ≤ 2 ^ 32)
    (hchosen : ∀ name ∈ names, isChosen name = true) (hnodup : names.Nodup)
    (hfree : ∀ i < names.length, isPassedOver ptr64 (nameAt (UInt64.ofNat i)) = false) :
    (renameAll ptr64 names).2.cursor = UInt64.ofNat names.length := by
  induction names using List.reverseRecOn with
  | nil => rfl
  | append_singleton names name ih =>
    rw [List.length_append, List.length_singleton] at hlength hfree ⊢
    rw [List.forall_mem_append, List.forall_mem_singleton] at hchosen
    obtain ⟨hnames, -, hdisjoint⟩ := List.nodup_append.1 hnodup
    have hcursor := ih (by omega) hchosen.1 hnames fun i hi => hfree i (by omega)
    have htracks := tracks_renameAll (toNat_cursor_lt_namePlaces ptr64 names (by omega))
    have hnone : (renameAll ptr64 names).2.assigned[name]? = none :=
      htracks.getElem?_of_notMem fun hmem =>
        hdisjoint name (List.mem_filter.1 (List.mem_eraseDups.1 hmem)).1 name
          List.mem_cons_self rfl
    -- the name at the cursor is free, so the search takes it at once
    have hfound : (renameAll ptr64 names).2.nextPlace = UInt64.ofNat names.length := by
      have hnot := hfree names.length (Nat.lt_succ_self _)
      rw [← Bool.not_eq_true, isPassedOver_iff] at hnot
      rw [Renaming.nextPlace, ptr64_renameAll, hcursor, freePlace, if_neg hnot]
    obtain ⟨hfixed, hsized⟩ := isChosen_iff.1 hchosen.2
    rw [renameAll_concat, Renaming.rename_of_new hfixed hnone hsized]
    change (renameAll ptr64 names).2.nextPlace + 1 = _
    rw [hfound, UInt64.ofNat_add]
    rfl

/-! ### Searching -/

/-- The search takes one way only. -/
lemma Search.unique {supply last last' : NameSupply} {n n' : Nat} {short short' : Bytes}
    (h : Search ptr64 supply n short last) (h' : Search ptr64 supply n' short' last') :
    n = n' ∧ short = short' ∧ last = last' := by
  induction h generalizing n' short' last' with
  | found hfree =>
    cases h' with
    | found => exact ⟨rfl, rfl, rfl⟩
    | pass hpassed => exact absurd (hpassed.symm.trans hfree) Bool.noConfusion
  | pass hpassed _ ih =>
    cases h' with
    | found hfree => exact absurd (hpassed.symm.trans hfree) Bool.noConfusion
    | pass _ hrest =>
      obtain ⟨rfl, rfl, rfl⟩ := ih hrest
      exact ⟨rfl, rfl, rfl⟩

/-- The search takes the names that are passed over, and then the first that is not. -/
lemma search_of_passedOver {i : UInt64} {n : Nat}
    (hskipped : ∀ m < n, isPassedOver ptr64 (nameAt (i + UInt64.ofNat m)) = true)
    (hfree : isPassedOver ptr64 (nameAt (i + UInt64.ofNat n)) = false) :
    Search ptr64 ⟨i⟩ (n + 1) (nameAt (i + UInt64.ofNat n)) ⟨i + UInt64.ofNat n + 1⟩ := by
  induction n generalizing i with
  | zero =>
    have hzero : i + UInt64.ofNat 0 = i := UInt64.add_zero i
    rw [hzero] at hfree ⊢
    exact .found hfree
  | succ n ih =>
    have hfirst : isPassedOver ptr64 (nameAt i) = true := by
      simpa using hskipped 0 (Nat.succ_pos n)
    rw [← add_one_add_ofNat] at hfree ⊢
    refine .pass hfirst (ih (fun m hm => ?_) hfree)
    rw [add_one_add_ofNat]
    exact hskipped (m + 1) (Nat.succ_lt_succ hm)

/-- The search ends, and finds the short name that is given next. -/
lemma Renaming.exists_search (r : Renaming) :
    ∃ n ≤ (letterSpellings r.ptr64).card,
      Search r.ptr64 ⟨r.cursor⟩ (n + 1) (nameAt r.nextPlace) ⟨r.nextPlace + 1⟩ := by
  have hlength := length_takenNames_le r.ptr64
  obtain ⟨n, hn, hplace, hfree, hskipped⟩ :=
    freePlace_spec (takenNames r.ptr64) r.cursor (by omega)
  change r.nextPlace = _ at hplace
  change nameAt r.nextPlace ∉ _ at hfree
  rw [← isPassedOver_iff, Bool.not_eq_true, hplace] at hfree
  simp only [← isPassedOver_iff] at hskipped
  rw [hplace]
  refine ⟨n, ?_, search_of_passedOver hskipped hfree⟩
  have hcount := length_le_card_letterSpellings r.cursor List.nodup_range
    (fun m hm => by have := List.mem_range.1 hm; omega)
    (fun m hm => hskipped m (List.mem_range.1 hm))
  rwa [List.length_range] at hcount

/-! ### Result -/

/-- Names are renamed one after the other, as long as the sequence of short names does not run out.
At any time the cursor is ahead of the number of short names given by the number of names in front
of it that are keywords or reserved, and that is never more than there are such names of letters
only.  The search for the next short name takes at most one name more than that, and what it finds
is given to the next chosen name that is new. -/
theorem search_bounded (ptr64 : Bool) {names : List Bytes} {r : Renaming}
    (hr : r = (renameAll ptr64 names).2)
    (hcursor : ∀ before, before <+: names → (renameAll ptr64 before).2.cursor.toNat < namePlaces) :
    r.cursor.toNat = r.count +
        ((List.range r.cursor.toNat).map fun i => nameAt (UInt64.ofNat i)).countP
          (isPassedOver ptr64) ∧
      r.cursor.toNat ≤ r.count + (letterSpellings ptr64).card ∧
      ∃ n short last, Search ptr64 ⟨r.cursor⟩ n short last ∧
        n ≤ (letterSpellings ptr64).card + 1 ∧
        ∀ name, isChosen name = true → name ∉ names →
          (r.rename name).1 = short ∧ (r.rename name).2.cursor = last.cursor := by
  have htracks := tracks_renameAll hcursor
  have hptr64 : r.ptr64 = ptr64 := by rw [hr, ptr64_renameAll]
  rw [← hr] at htracks
  have hcount : r.cursor.toNat = r.count +
      ((List.range r.cursor.toNat).map fun i => nameAt (UInt64.ofNat i)).countP
        (isPassedOver ptr64) := by
    have hsplit := length_freeNames_add_countP ptr64 r.cursor.toNat
    rw [← hptr64, htracks.length_freeNames, ← htracks.count_eq, hptr64] at hsplit
    exact hsplit.symm
  refine ⟨hcount, ?_, ?_⟩
  · have hle := countP_le_card_letterSpellings ptr64 r.cursor.toNat_lt.le
    omega
  · obtain ⟨n, hn, hsearch⟩ := r.exists_search
    rw [hptr64] at hn hsearch
    refine ⟨n + 1, _, _, hsearch, Nat.succ_le_succ hn, fun name hchosen hnew => ?_⟩
    obtain ⟨hfixed, hsized⟩ := isChosen_iff.1 hchosen
    have hnone : r.assigned[name]? = none := htracks.getElem?_of_notMem fun hmem =>
      hnew (List.mem_filter.1 (List.mem_eraseDups.1 hmem)).1
    rw [Renaming.rename_of_new hfixed hnone hsized]
    exact ⟨rfl, rfl⟩

/-- Behind 325 names the keyword `fn` stands next in the sequence.  The search passes over it and
takes one name more; there are 62 keywords and reserved names that it could have met. -/
theorem search_bounded_of_keyword :
    let names := (List.range 325).map fun i => byte 'x' :: nameAt (UInt64.ofNat i)
    (renameAll false names).2.cursor = 325 ∧ nameAt 325 = ascii "fn" ∧
      Search false ⟨325⟩ 2 (ascii "fo") ⟨327⟩ ∧ 2 ≤ (letterSpellings false).card + 1 ∧
      (letterSpellings false).card = 62 ∧
      ((renameAll false names).2.rename (ascii "y")).1 = ascii "fo" := by
  intro names
  have hlength : names.length = 325 := by simp [names]
  have hchosen : ∀ name ∈ names, isChosen name = true := by
    intro name hname
    obtain ⟨i, -, rfl⟩ := List.mem_map.1 hname
    have hfixed : ∀ fixed ∈ fixedNames, fixed.head? ≠ some (byte 'x') := by decide
    have hsized : isSizedInt (byte 'x' :: nameAt (UInt64.ofNat i)) = false := by
      cases nameAt (UInt64.ofNat i) with
      | nil => rfl
      | cons _ _ => rfl
    exact isChosen_iff.2 ⟨fun hmem => hfixed _ hmem rfl, hsized⟩
  have hword : ∀ i < 325, (UInt64.ofNat i).toNat = i := fun i hi =>
    UInt64.toNat_ofNat_of_lt' (hi.trans (by decide))
  have hnodup : names.Nodup := by
    refine List.nodup_range.map_on fun i hi j hj heq => ?_
    have hwords := congrArg UInt64.toNat (nameAt_injective (List.cons.inj heq).2)
    rwa [hword i (List.mem_range.1 hi), hword j (List.mem_range.1 hj)] at hwords
  obtain ⟨hcard, hkeyword, hshort, hpassed, hfree, hvalues⟩ :
      (letterSpellings false).card = 62 ∧ nameAt 325 = ascii "fn" ∧ nameAt 326 = ascii "fo" ∧
        isPassedOver false (nameAt 325) = true ∧ isPassedOver false (nameAt 326) = false ∧
        ∀ name ∈ takenNames false, name.length ≤ (nameAt 325).length →
          (∀ b ∈ name, isLetter b = true) → (325 : UInt64).toNat < nameValue name := by
    decide +kernel
  have hcursor : (renameAll false names).2.cursor = 325 := by
    have hcursor := cursor_renameAll_of_free (by omega) hchosen hnodup fun i hi =>
      isPassedOver_nameAt_eq_false (by decide) hvalues
        (UInt64.lt_iff_toNat_lt.2 (by rw [hword i (by omega)]; simpa [hlength] using hi))
    rwa [hlength] at hcursor
  have hfound : Search false ⟨325⟩ 2 (ascii "fo") ⟨327⟩ := by
    rw [← hshort]
    exact .pass hpassed (.found hfree)
  obtain ⟨-, -, n, short, last, hsearch, hbound, hgiven⟩ :=
    search_bounded false rfl (toNat_cursor_lt_namePlaces false names (by omega))
  rw [hcursor] at hsearch
  obtain ⟨rfl, rfl, rfl⟩ := hsearch.unique hfound
  have hnew : ascii "y" ∉ names := fun hmem => by
    obtain ⟨i, -, heq⟩ := List.mem_map.1 hmem
    exact absurd (List.cons.inj heq).1 (by decide)
  exact ⟨hcursor, hkeyword, hfound, hbound, hcard, (hgiven _ (by decide) hnew).1⟩

end ZigGolf
