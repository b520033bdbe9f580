import Mathlib.Data.List.Infix
import Mathlib.Data.List.Induction
import ZigGolf.Bytes.Iteration
import ZigGolf.Proofs.Naming.Renaming

/-!
# Which short name goes to which name

Short names are given in order: the first name that a program has chosen gets the first short name
that is free, the next different one gets the next, and so on.  `chosenNames` lists the names of a
program that are to be given one, in the order in which they are met, and `freeNames` lists the
short names that may be given, in the order of the sequence.  A renaming pairs the two lists off
(`Renaming.Tracks`), whatever is renamed in between and however many short names are skipped
(`renameAll_assigns`).
-/

namespace ZigGolf

/-- How many names of up to eleven letters there are: below this place every name of the sequence is
found within 64-bit words. -/
def namePlaces : Nat := 7664255029142160644

/-! ### The two lists -/

/-- The names that a program has chosen: those without a fixed meaning that are no integer types of
a given width. -/
def isChosen (name : Bytes) : Bool := !fixedNames.contains name && !isSizedInt name

/-- The different chosen names of a list, in the order in which they first occur. -/
def chosenNames (names : List Bytes) : List Bytes := (names.filter isChosen).eraseDups

/-- The short names at the first `n` places of the sequence that are neither keywords nor
reserved. -/
def freeNames (ptr64 : Bool) (n : Nat) : List Bytes :=
  ((List.range n).map fun i => nameAt (UInt64.ofNat i)).filter fun name =>
    (Keyword.ofSpelling? name).isNone && !isReserved ptr64 name

/-- What comes of renaming a list of names from the start: their new spellings, and the short names
that were given. -/
def renameAll (ptr64 : Bool) (names : List Bytes) : List Bytes × Renaming :=
  thread Renaming.rename { ptr64 } names

/-- What a program has chosen has no fixed meaning and is no integer type of a given width. -/
lemma isChosen_iff {name : Bytes} :
    isChosen name = true ↔ name ∉ fixedNames ∧ isSizedInt name = false := by
  simp [isChosen]

/-- A further name is listed if it is chosen and has not occurred. -/
lemma chosenNames_concat (names : List Bytes) (name : Bytes) :
    chosenNames (names ++ [name]) =
      if isChosen name = true ∧ name ∉ chosenNames names then chosenNames names ++ [name]
      else chosenNames names := by
  unfold chosenNames
  rw [List.filter_append, List.eraseDups_append]
  cases hchosen : isChosen name with
  | false => simp [hchosen, List.removeAll]
  | true =>
    by_cases hmem : name ∈ names
    · simp [hchosen, hmem, List.removeAll]
    · simp [hchosen, hmem, List.removeAll, List.eraseDups_cons]

/-! ### Free short names -/

section FreeNames

variable {ptr64 : Bool}

/-- A further place adds its name if that is free. -/
lemma freeNames_succ (ptr64 : Bool) (n : Nat) :
    freeNames ptr64 (n + 1) =
      freeNames ptr64 n ++
        if nameAt (UInt64.ofNat n) ∈ takenNames ptr64 then [] else [nameAt (UInt64.ofNat n)] := by
  unfold freeNames
  rw [List.range_succ, List.map_append, List.filter_append]
  congr 1
  by_cases htaken : nameAt (UInt64.ofNat n) ∈ takenNames ptr64
  · rw [if_pos htaken]
    rw [mem_takenNames_iff] at htaken
    rcases htaken with hkeyword | hreserved
    · simp [Option.isNone_iff_eq_none, Keyword.ofSpelling?_eq_none_iff, hkeyword]
    · simp [hreserved]
  · rw [if_neg htaken]
    rw [mem_takenNames_iff, not_or, Bool.not_eq_true, ← Keyword.ofSpelling?_eq_none_iff] at htaken
    simp [htaken.1, htaken.2]

/-- Places of taken names add nothing. -/
lemma freeNames_add_of_taken (n : Nat) {m : Nat}
    (h : ∀ k < m, nameAt (UInt64.ofNat (n + k)) ∈ takenNames ptr64) :
    freeNames ptr64 (n + m) = freeNames ptr64 n := by
  induction m with
  | zero => rfl
  | succ m ih =>
    rw [← Nat.add_assoc, freeNames_succ, if_pos (h m (Nat.lt_succ_self m)), List.append_nil]
    exact ih fun k hk => h k (Nat.lt_succ_of_lt hk)

/-- More places have the same free names at the start. -/
lemma getElem?_freeNames_of_le {n m j : Nat} (h : n ≤ m) {short : Bytes}
    (hj : (freeNames ptr64 n)[j]? = some short) : (freeNames ptr64 m)[j]? = some short := by
  induction h with
  | refl => exact hj
  | @step m _ ih =>
    rw [Nat.succ_eq_add_one, freeNames_succ,
      List.getElem?_append_left (List.getElem?_eq_some_iff.1 ih).1, ih]

/-- Later free names are not shorter. -/
lemma length_le_of_getElem?_freeNames {n j k : Nat} (hn : n ≤ 2 ^ 64) (hjk : j ≤ k)
    {short short' : Bytes} (hj : (freeNames ptr64 n)[j]? = some short)
    (hk : (freeNames ptr64 n)[k]? = some short') : short.length ≤ short'.length := by
  have hpairwise : (freeNames ptr64 n).Pairwise fun a b => a.length ≤ b.length := by
    refine List.Pairwise.filter _ (List.pairwise_map.2 ?_)
    refine List.Pairwise.imp_of_mem (fun {a b} _ hb hab => ?_) List.pairwise_lt_range
    rw [List.mem_range] at hb
    apply length_nameAt_mono
    rw [UInt64.le_iff_toNat_le, UInt64.toNat_ofNat', UInt64.toNat_ofNat',
      Nat.mod_eq_of_lt (by omega), Nat.mod_eq_of_lt (by omega)]
    omega
  obtain ⟨hj', rfl⟩ := List.getElem?_eq_some_iff.1 hj
  obtain ⟨hk', rfl⟩ := List.getElem?_eq_some_iff.1 hk
  rcases Nat.lt_or_eq_of_le hjk with hlt | rfl
  · exact List.pairwise_iff_getElem.1 hpairwise j k hj' hk' hlt
  · exact Nat.le_refl _

end FreeNames

namespace Renaming

variable {r : Renaming} {seen : List Bytes} {name : Bytes}

/-- What is between the cursor and the next free place is taken, and nothing wraps around. -/
lemma freeNames_nextPlace (hcursor : r.cursor.toNat < namePlaces) :
    freeNames r.ptr64 (r.nextPlace + 1).toNat =
      freeNames r.ptr64 r.cursor.toNat ++ [nameAt r.nextPlace] := by
  unfold namePlaces at hcursor
  have hlength := length_takenNames_le r.ptr64
  obtain ⟨n, hn, hplace, hfree, hskipped⟩ :=
    freePlace_spec (takenNames r.ptr64) r.cursor (by omega)
  change r.nextPlace = _ at hplace
  change nameAt r.nextPlace ∉ _ at hfree
  have hwords : ∀ m, UInt64.ofNat (r.cursor.toNat + m) = r.cursor + UInt64.ofNat m := by
    intro m
    rw [UInt64.ofNat_add, UInt64.ofNat_toNat]
  have hnext : (r.nextPlace + 1).toNat = r.cursor.toNat + n + 1 := by
    rw [hplace, UInt64.toNat_add, UInt64.toNat_add, UInt64.toNat_ofNat', UInt64.toNat_one]
    omega
  have hsame : freeNames r.ptr64 (r.cursor.toNat + n) = freeNames r.ptr64 r.cursor.toNat := by
    refine freeNames_add_of_taken _ fun k hk => ?_
    rw [hwords]
    exact hskipped k hk
  rw [hnext, freeNames_succ, hsame, hwords, ← hplace, if_neg hfree]

/-! ### Pairing off -/

/-- The renamings that have given free short names to the names in a list, one after the other, and
none to any other name. -/
structure Tracks (seen : List Bytes) (r : Renaming) : Prop where
  length_freeNames : (freeNames r.ptr64 r.cursor.toNat).length = seen.length
  getElem?_of_seen : ∀ {j : Nat} {name : Bytes}, seen[j]? = some name →
    r.assigned[name]? = (freeNames r.ptr64 r.cursor.toNat)[j]?
  getElem?_of_notMem : ∀ {name : Bytes}, name ∉ seen → r.assigned[name]? = none
  count_eq : r.count = seen.length

/-- At the start no name has been given a short one. -/
lemma tracks_empty (ptr64 : Bool) : Tracks [] { ptr64 } := by
  refine ⟨rfl, by simp, by simp, rfl⟩

/-- Exactly the names in the list have got a short name. -/
lemma Tracks.getElem?_eq_none_iff (h : Tracks seen r) : r.assigned[name]? = none ↔ name ∉ seen := by
  refine ⟨fun hnone hmem => ?_, h.getElem?_of_notMem⟩
  obtain ⟨j, hj⟩ := List.mem_iff_getElem?.1 hmem
  have hlt := (List.getElem?_eq_some_iff.1 hj).1
  rw [h.getElem?_of_seen hj, List.getElem?_eq_none_iff, h.length_freeNames] at hnone
  omega

/-- A new name is given the free short name behind those given before. -/
lemma Tracks.assign (h : Tracks seen r) (hcursor : r.cursor.toNat < namePlaces)
    (hname : name ∉ seen) : Tracks (seen ++ [name]) (r.assign name) := by
  have hfree : freeNames (r.assign name).ptr64 (r.assign name).cursor.toNat =
      freeNames r.ptr64 r.cursor.toNat ++ [nameAt r.nextPlace] := freeNames_nextPlace hcursor
  refine ⟨?_, fun {j other} hj => ?_, fun {other} hother => ?_, ?_⟩
  · rw [hfree, List.length_append, List.length_append, h.length_freeNames]
    rfl
  · rw [hfree, getElem?_assign]
    rcases Nat.lt_or_ge j seen.length with hlt | hge
    · rw [List.getElem?_append_left hlt] at hj
      have hne : name ≠ other := by
        rintro rfl
        exact hname (List.mem_of_getElem? hj)
      rw [if_neg hne, List.getElem?_append_left (by rw [h.length_freeNames]; exact hlt)]
      exact h.getElem?_of_seen hj
    · rw [List.getElem?_append_right hge] at hj
      obtain ⟨hzero, rfl⟩ : j - seen.length = 0 ∧ name = other := by
        simpa [List.getElem?_singleton] using hj
      rw [if_pos rfl, List.getElem?_append_right (by rw [h.length_freeNames]; exact hge),
        h.length_freeNames, hzero]
      rfl
  · rw [List.mem_append, not_or, List.mem_singleton] at hother
    rw [getElem?_assign, if_neg (Ne.symm hother.2)]
    exact h.getElem?_of_notMem hother.1
  · have hnone := h.getElem?_of_notMem hname
    have hcontains : r.assigned.contains name = false := by
      rw [Std.TreeMap.contains_eq_isSome_getElem?, hnone]
      rfl
    rw [List.length_append, ← h.count_eq]
    simp [count, Renaming.assign, Std.TreeMap.size_insert, hcontains]

end Renaming

/-! ### Any number of names -/

open Renaming

variable {ptr64 : Bool} {names : List Bytes}

/-- Names are renamed one after the other. -/
lemma renameAll_concat (ptr64 : Bool) (names : List Bytes) (name : Bytes) :
    (renameAll ptr64 (names ++ [name])).2 = ((renameAll ptr64 names).2.rename name).2 := by
  rw [renameAll, thread_append]
  rfl

/-- Renaming names does not change the size of pointers. -/
@[simp] lemma ptr64_renameAll (ptr64 : Bool) (names : List Bytes) :
    (renameAll ptr64 names).2.ptr64 = ptr64 := by
  induction names using List.reverseRecOn with
  | nil => rfl
  | append_singleton names name ih => rw [renameAll_concat, ptr64_rename, ih]

/-- After any number of names the chosen ones among them are paired off with the free short
names. -/
lemma tracks_renameAll
    (hcursor : ∀ before, before <+: names → (renameAll ptr64 before).2.cursor.toNat < namePlaces) :
    Tracks (chosenNames names) (renameAll ptr64 names).2 := by
  induction names using List.reverseRecOn with
  | nil => exact tracks_empty ptr64
  | append_singleton names name ih =>
    have htracks := ih fun before hbefore => hcursor before (hbefore.trans (List.prefix_append _ _))
    have hlast := hcursor names (List.prefix_append _ _)
    rw [renameAll_concat, chosenNames_concat]
    generalize (renameAll ptr64 names).2 = r at htracks hlast
    rcases r.rename_cases name with ⟨hfixed, hr⟩ | ⟨-, short, hshort, hr⟩ | ⟨-, -, hsized, hr⟩ |
      ⟨hfixed, hnone, hsized, hr⟩
    · rw [hr, if_neg fun h => (isChosen_iff.1 h.1).1 hfixed]
      exact htracks
    · have hmem : name ∈ chosenNames names := by
        by_contra hnot
        rw [htracks.getElem?_of_notMem hnot] at hshort
        simp at hshort
      rw [hr, if_neg fun h => h.2 hmem]
      exact htracks
    · rw [hr, if_neg fun h => by simp [(isChosen_iff.1 h.1).2] at hsized]
      exact htracks
    · have hnew := htracks.getElem?_eq_none_iff.1 hnone
      rw [hr, if_pos ⟨isChosen_iff.2 ⟨hfixed, hsized⟩, hnew⟩]
      exact htracks.assign hlast hnew

/-- The short names that are given to the names of a list are all different. -/
lemma distinct_renameAll (ptr64 : Bool) (h : names.length ≤ 2 ^ 32) :
    Distinct names.length (renameAll ptr64 names).2 := by
  induction names using List.reverseRecOn with
  | nil => exact distinct_empty ptr64
  | append_singleton names name ih =>
    rw [List.length_append, List.length_singleton] at h ⊢
    rw [renameAll_concat]
    exact (ih (Nat.le_of_succ_le h)).rename h name

/-- Lists of names come nowhere near the end of the sequence of short names. -/
lemma toNat_cursor_lt_namePlaces (ptr64 : Bool) (names : List Bytes) (h : names.length ≤ 2 ^ 32) :
    ∀ before, before <+: names → (renameAll ptr64 before).2.cursor.toNat < namePlaces := by
  intro before hbefore
  have hlength := hbefore.length_le
  have hcursor := (distinct_renameAll ptr64 (hlength.trans h)).cursor_le
  unfold namePlaces
  omega

/-- A settled name stays settled whatever names are met. -/
lemma Renaming.Settled.thread {r : Renaming} {name spelling : Bytes}
    (h : r.Settled name spelling) (names : List Bytes) :
    (ZigGolf.thread Renaming.rename r names).2.Settled name spelling := by
  induction names generalizing r with
  | nil => exact h
  | cons other names ih =>
    rw [thread_cons]
    exact ih (h.rename other)

/-- Every name of a list is given the spelling that it has in the end. -/
lemma getElem?_renameAll {i : Nat} {name : Bytes} (h : names[i]? = some name) :
    (renameAll ptr64 names).1[i]? = some ((renameAll ptr64 names).2.rename name).1 := by
  obtain ⟨hget, hfinal⟩ := getElem?_thread Renaming.rename { ptr64 } h
  have hsettled := (settled_rename (thread Renaming.rename { ptr64 } (names.take i)).2 name).thread
    (names.drop (i + 1))
  rw [← hfinal] at hsettled
  rw [renameAll, hget, hsettled]

/-- The `j`th of the chosen names is given the `j`th of the free short names. -/
lemma getElem?_renameAll_of_chosen
    (hcursor : ∀ before, before <+: names → (renameAll ptr64 before).2.cursor.toNat < namePlaces)
    {i j : Nat} {name : Bytes} (hi : names[i]? = some name)
    (hj : (chosenNames names)[j]? = some name) :
    ∃ short, (renameAll ptr64 names).1[i]? = some short ∧
      (freeNames ptr64 (renameAll ptr64 names).2.cursor.toNat)[j]? = some short := by
  have htracks := tracks_renameAll hcursor
  have hlength := htracks.length_freeNames
  have hassigned := htracks.getElem?_of_seen hj
  rw [ptr64_renameAll] at hlength hassigned
  have hlt : j < (freeNames ptr64 (renameAll ptr64 names).2.cursor.toNat).length := by
    rw [hlength]
    exact (List.getElem?_eq_some_iff.1 hj).1
  rw [List.getElem?_eq_getElem hlt] at hassigned ⊢
  have hchosen : isChosen name = true :=
    (List.mem_filter.1 (List.mem_eraseDups.1 (List.mem_of_getElem? hj))).2
  refine ⟨_, ?_, rfl⟩
  rw [getElem?_renameAll hi, rename_of_assigned (isChosen_iff.1 hchosen).1 hassigned]

/-! ### Result -/

/-- Names are renamed one after the other, as long as the sequence of short names does not run out.
The `j`th different name that a program has chosen is given the `j`th short name that is neither a
keyword nor reserved, each time that it is met.  Any name is spelled alike each time, there are as
many short names given as different chosen names met, and names met later are given no shorter ones.
-/
theorem renameAll_assigns (ptr64 : Bool) {names : List Bytes}
    (hcursor : ∀ before, before <+: names → (renameAll ptr64 before).2.cursor.toNat < namePlaces) :
    (∀ {i j : Nat} {name : Bytes}, names[i]? = some name → (chosenNames names)[j]? = some name →
      ∃ short, (renameAll ptr64 names).1[i]? = some short ∧
        ∀ n, (renameAll ptr64 names).2.cursor.toNat ≤ n →
          (freeNames ptr64 n)[j]? = some short) ∧
      (∀ {i k : Nat} {name : Bytes}, names[i]? = some name → names[k]? = some name →
        (renameAll ptr64 names).1[i]? = (renameAll ptr64 names).1[k]?) ∧
      (renameAll ptr64 names).2.count = (chosenNames names).length ∧
      ∀ {i j k l : Nat} {name other short short' : Bytes},
        names[i]? = some name → (chosenNames names)[j]? = some name →
        names[k]? = some other → (chosenNames names)[l]? = some other → j ≤ l →
        (renameAll ptr64 names).1[i]? = some short →
        (renameAll ptr64 names).1[k]? = some short' → short.length ≤ short'.length := by
  refine ⟨fun hi hj => ?_, fun hi hk => ?_, (tracks_renameAll hcursor).count_eq, ?_⟩
  · obtain ⟨short, hshort, hfree⟩ := getElem?_renameAll_of_chosen hcursor hi hj
    exact ⟨short, hshort, fun n hn => getElem?_freeNames_of_le hn hfree⟩
  · rw [getElem?_renameAll hi, getElem?_renameAll hk]
  · intro i j k l name other short short' hi hj hk hl hjl hshort hshort'
    obtain ⟨_, hgiven, hfree⟩ := getElem?_renameAll_of_chosen hcursor hi hj
    obtain ⟨_, hgiven', hfree'⟩ := getElem?_renameAll_of_chosen hcursor hk hl
    rw [hgiven] at hshort
    rw [hgiven'] at hshort'
    obtain rfl := Option.some.inj hshort
    obtain rfl := Option.some.inj hshort'
    exact length_le_of_getElem?_freeNames (UInt64.toNat_lt _).le hjl hfree hfree'

/-- Between two uses of `foo` neither the integer type nor the entry point takes a short name, so
the name behind them gets the second. -/
theorem renameAll_assigns_of_repeated :
    (renameAll false [ascii "foo", ascii "u8", ascii "main", ascii "foo", ascii "bar"]).1[4]? =
        some (ascii "b") ∧
      (freeNames false 9)[1]? = some (ascii "b") ∧
      (renameAll false [ascii "foo", ascii "u8", ascii "main", ascii "foo", ascii "bar"]).2.count =
        2 := by
  obtain ⟨hgiven', hcursor, hchosen⟩ :
      (renameAll false [ascii "foo", ascii "u8", ascii "main", ascii "foo", ascii "bar"]).1[4]? =
        some (ascii "b") ∧
      (renameAll false [ascii "foo", ascii "u8", ascii "main", ascii "foo",
        ascii "bar"]).2.cursor.toNat ≤ 9 ∧
      chosenNames [ascii "foo", ascii "u8", ascii "main", ascii "foo", ascii "bar"] =
        [ascii "foo", ascii "bar"] := by
    decide +kernel
  obtain ⟨hassigns, -, hcount, -⟩ :=
    renameAll_assigns false (toNat_cursor_lt_namePlaces false
      [ascii "foo", ascii "u8", ascii "main", ascii "foo", ascii "bar"] (by decide))
  obtain ⟨short, hgiven, hfree⟩ := hassigns (i := 4) (j := 1) rfl (by rw [hchosen]; rfl)
  rw [hgiven'] at hgiven
  obtain rfl := Option.some.inj hgiven
  refine ⟨hgiven', hfree 9 hcursor, ?_⟩
  rw [hcount, hchosen]
  rfl

end ZigGolf
