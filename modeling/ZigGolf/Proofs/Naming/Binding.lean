import ZigGolf.Proofs.Naming.Renaming

/-!
# Bindings

Two identifiers denote the same binding if they are spelled alike, if they differ by quotes that are
redundant, or if they are an integer type of pointer size and the type it is on 64-bit targets
(`SameBinding`).  A renaming that has met both writes them alike exactly then
(`Renaming.Proper.spelling_eq_iff_sameBinding`): it neither splits a binding nor joins two.
-/

namespace ZigGolf

/-- A name in quotes. -/
def quotedForm (name : Bytes) : Bytes := atSign :: quote :: (name ++ [quote])

/-- The names whose quotes are redundant: those that without quotes are no keyword, no integer type
and no reserved name, and the entry point. -/
def QuotesRedundant (ptr64 : Bool) (name : Bytes) : Prop :=
  isPlainName name = true ∧ name ∉ keywordSpellings ∧ isSizedInt name = false ∧
    isReserved ptr64 name = false ∨ name = entryPoint

/-- The spellings that denote the same binding. -/
def SameBinding (ptr64 : Bool) (x y : Bytes) : Prop :=
  x = y ∨
    (∃ name, QuotesRedundant ptr64 name ∧
      (x = quotedForm name ∧ y = name ∨ x = name ∧ y = quotedForm name)) ∨
    ptr64 = true ∧ ∃ p ∈ pointerAliases, x = p.1 ∧ y = p.2 ∨ x = p.2 ∧ y = p.1

/-! ### Names in quotes -/

/-- Names are told apart by their quoted forms. -/
lemma quotedForm_injective : Function.Injective quotedForm := by
  intro a b h
  exact List.append_cancel_right (List.cons.inj (List.cons.inj h).2).2

/-- Only a plain name can do without its quotes. -/
lemma QuotesRedundant.isPlainName {ptr64 : Bool} {name : Bytes} (h : QuotesRedundant ptr64 name) :
    ZigGolf.isPlainName name = true := by
  rcases h with ⟨hplain, -⟩ | rfl
  · exact hplain
  · decide

/-- A plain name is no name in quotes. -/
lemma ne_quotedForm_of_isPlainName {x : Bytes} (hx : isPlainName x = true) (name : Bytes) :
    x ≠ quotedForm name := by
  rintro rfl
  simp +decide [quotedForm, isPlainName] at hx

namespace Renaming

variable {r : Renaming}

/-- The name between the quotes is that of which the spelling is the quoted form. -/
lemma quotedName?_eq_some_iff {x name : Bytes} :
    quotedName? x = some name ↔ x = quotedForm name := by
  constructor
  · intro h
    unfold quotedName? at h
    split at h
    · next sigil opening rest =>
      split at h
      · next hquotes =>
        simp only [Bool.and_eq_true, beq_iff_eq] at hquotes
        obtain ⟨⟨rfl, rfl⟩, hlast⟩ := hquotes
        obtain ⟨body, rfl⟩ := List.getLast?_eq_some_iff.1 hlast
        rw [List.dropLast_concat] at h
        rw [← Option.some.inj h]
        rfl
      · simp at h
    · simp at h
  · rintro rfl
    simp [quotedName?, quotedForm]

/-- An identifier stands for the name between its quotes if they are redundant, else for itself. -/
lemma key_cases (r : Renaming) (x : Bytes) :
    (∃ name, QuotesRedundant r.ptr64 name ∧ x = quotedForm name ∧ r.key x = name) ∨
      (∀ name, QuotesRedundant r.ptr64 name → x ≠ quotedForm name) ∧ r.key x = x := by
  unfold key
  split
  · next name hname =>
    obtain rfl := quotedName?_eq_some_iff.1 hname
    have hentry : isPlainName entryPoint = true ∧ Keyword.ofSpelling? entryPoint = none ∧
        isSizedInt entryPoint = false := by decide
    split
    · next hcond =>
      simp only [Bool.and_eq_true, Bool.not_eq_true', Bool.or_eq_true, beq_iff_eq,
        Option.isNone_iff_eq_none, Keyword.ofSpelling?_eq_none_iff] at hcond
      obtain ⟨⟨⟨hplain, hkeyword⟩, hsized⟩, hreserved⟩ := hcond
      refine .inl ⟨name, ?_, rfl, rfl⟩
      rcases hreserved with hmain | hreserved
      · exact .inr hmain
      · exact .inl ⟨hplain, hkeyword, hsized, hreserved⟩
    · next hcond =>
      refine .inr ⟨fun other hother heq => hcond ?_, rfl⟩
      obtain rfl := quotedForm_injective heq
      rcases hother with ⟨hplain, hkeyword, hsized, hreserved⟩ | rfl
      · rw [hplain, Keyword.ofSpelling?_eq_none_iff.2 hkeyword, hsized, hreserved]
        simp
      · rw [hentry.1, hentry.2.1, hentry.2.2]
        simp
  · next hnone =>
    refine .inr ⟨fun name _ heq => ?_, rfl⟩
    rw [quotedName?_eq_some_iff.2 heq] at hnone
    simp at hnone

/-- A name without quotes stands for itself. -/
lemma key_of_isPlainName {x : Bytes} (hx : isPlainName x = true) : r.key x = x := by
  rcases r.key_cases x with ⟨name, -, hquoted, -⟩ | ⟨-, hkey⟩
  · exact absurd hquoted (ne_quotedForm_of_isPlainName hx name)
  · exact hkey

/-- The name that an identifier stands for does not depend on the names met so far. -/
lemma key_congr {r' : Renaming} (h : r.ptr64 = r'.ptr64) (x : Bytes) : r.key x = r'.key x := by
  unfold key
  rw [h]

/-- Two identifiers stand for the same name if and only if they differ at most by redundant
quotes. -/
lemma key_eq_key_iff {x y : Bytes} :
    r.key x = r.key y ↔
      x = y ∨ ∃ name, QuotesRedundant r.ptr64 name ∧
        (x = quotedForm name ∧ y = name ∨ x = name ∧ y = quotedForm name) := by
  constructor
  · intro h
    rcases r.key_cases x with ⟨a, ha, hx, hkeyx⟩ | ⟨hx, hkeyx⟩
    · rcases r.key_cases y with ⟨b, -, hy, hkeyy⟩ | ⟨-, hkeyy⟩
      · rw [hkeyx, hkeyy] at h
        exact .inl (by rw [hx, hy, h])
      · rw [hkeyx, hkeyy] at h
        exact .inr ⟨a, ha, .inl ⟨hx, h.symm⟩⟩
    · rcases r.key_cases y with ⟨b, hb, hy, hkeyy⟩ | ⟨-, hkeyy⟩
      · rw [hkeyx, hkeyy] at h
        exact .inr ⟨b, hb, .inr ⟨h, hy⟩⟩
      · rw [hkeyx, hkeyy] at h
        exact .inl h
  · have hquoted : ∀ {name}, QuotesRedundant r.ptr64 name →
        r.key (quotedForm name) = r.key name := by
      intro name hname
      rw [key_of_isPlainName hname.isPlainName]
      rcases r.key_cases (quotedForm name) with ⟨other, -, heq, hkey⟩ | ⟨hnot, -⟩
      · rw [hkey, quotedForm_injective heq]
      · exact absurd rfl (hnot name hname)
    rintro (rfl | ⟨name, hname, ⟨rfl, rfl⟩ | ⟨rfl, rfl⟩⟩)
    · rfl
    · exact hquoted hname
    · exact (hquoted hname).symm

/-! ### Spellings -/

/-- A name with a fixed meaning is written with a reserved spelling. -/
lemma fixedSpelling_mem_takenNames (ptr64 : Bool) {name : Bytes} (h : name ∈ fixedNames) :
    fixedSpelling ptr64 name ∈ takenNames ptr64 := by
  rcases fixedSpelling_cases ptr64 name with heq | ⟨rfl, halias⟩
  · rw [heq]
    exact fixedNames_subset ptr64 h
  · have hmem := List.mem_map_of_mem (f := Prod.snd) halias
    simp [takenNames, hmem]

/-- Names with a fixed meaning are written each with its own spelling. -/
lemma fixedSpelling_injOn (ptr64 : Bool) {a b : Bytes} (ha : a ∈ fixedNames) (hb : b ∈ fixedNames)
    (h : fixedSpelling ptr64 a = fixedSpelling ptr64 b) : a = b := by
  rcases fixedSpelling_cases ptr64 a with heqa | ⟨-, haliasa⟩
  · rcases fixedSpelling_cases ptr64 b with heqb | ⟨-, haliasb⟩
    · rw [← heqa, h, heqb]
    · obtain ⟨-, -, hnot, -⟩ := pointerAliases_spec _ haliasb
      exact absurd ha (by rwa [← heqa, h])
  · rcases fixedSpelling_cases ptr64 b with heqb | ⟨-, haliasb⟩
    · obtain ⟨-, -, hnot, -⟩ := pointerAliases_spec _ haliasa
      exact absurd hb (by rwa [← heqb, ← h])
    · exact pointerAliases_injective _ haliasa _ haliasb h

/-- A name is settled in one way only. -/
lemma Settled.unique {name v w : Bytes} (hv : r.Settled name v) (hw : r.Settled name w) :
    v = w := by
  unfold Settled at hv hw
  rw [hv] at hw
  exact (Prod.mk.inj hw).1

/-- A short name is never taken and no integer type. -/
lemma Proper.short_spec (hp : r.Proper) {name short : Bytes}
    (h : r.assigned[name]? = some short) :
    short ∉ takenNames r.ptr64 ∧ isSizedInt short = false := by
  refine ⟨(hp h).notMem_takenNames, ?_⟩
  obtain ⟨i, rfl⟩ := (hp h).exists_place
  exact isSizedInt_nameAt i

/-- An integer type is written as it is. -/
lemma Proper.spelling_of_isSizedInt (hp : r.Proper) {name spelling : Bytes}
    (hsized : isSizedInt name = true) (h : r.Settled name spelling) : spelling = name := by
  rcases settled_iff.1 h with ⟨hfixed, -⟩ | ⟨-, hassigned⟩ | ⟨-, -, -, heq⟩
  · rw [(fixedNames_spec name hfixed).2] at hsized
    simp at hsized
  · rw [(hp hassigned).isSizedInt_eq_false] at hsized
    simp at hsized
  · exact heq

/-- Of two settled names that are written alike, the first with a fixed meaning, the second is the
same, or the two are a type of pointer size and what it is on 64-bit targets. -/
lemma Proper.eq_of_fixedSpelling_eq (hp : r.Proper) {a b : Bytes} (ha : a ∈ fixedNames)
    (hb : r.Settled b (fixedSpelling r.ptr64 a)) :
    a = b ∨ r.ptr64 = true ∧ (a, b) ∈ pointerAliases := by
  rcases settled_iff.1 hb with ⟨hfixed, heq⟩ | ⟨-, hassigned⟩ | ⟨-, -, hsized, heq⟩
  · exact .inl (fixedSpelling_injOn r.ptr64 ha hfixed heq)
  · exact absurd (fixedSpelling_mem_takenNames r.ptr64 ha) (hp.short_spec hassigned).1
  · rcases fixedSpelling_cases r.ptr64 a with hself | halias
    · exact .inl (by rw [← hself, heq])
    · rw [heq] at halias
      exact .inr halias

/-- Two settled names are written alike if and only if they are the same name, or a type of pointer
size and what it is on 64-bit targets. -/
lemma Proper.spelling_eq_iff (hp : r.Proper) {n : Nat} (hd : r.Distinct n) {a b v w : Bytes}
    (ha : r.Settled a v) (hb : r.Settled b w) :
    v = w ↔
      a = b ∨ r.ptr64 = true ∧ ∃ p ∈ pointerAliases, a = p.1 ∧ b = p.2 ∨ a = p.2 ∧ b = p.1 := by
  constructor
  · rintro rfl
    by_cases hfixed : a ∈ fixedNames
    · obtain rfl := ha.unique (rename_of_fixed hfixed)
      rcases hp.eq_of_fixedSpelling_eq hfixed hb with heq | ⟨hptr, hmem⟩
      · exact .inl heq
      · exact .inr ⟨hptr, (a, b), hmem, .inl ⟨rfl, rfl⟩⟩
    by_cases hfixed' : b ∈ fixedNames
    · obtain rfl := hb.unique (rename_of_fixed hfixed')
      rcases hp.eq_of_fixedSpelling_eq hfixed' ha with heq | ⟨hptr, hmem⟩
      · exact .inl heq.symm
      · exact .inr ⟨hptr, (b, a), hmem, .inr ⟨rfl, rfl⟩⟩
    -- neither has a fixed meaning: each has a short name or is an integer type
    left
    rcases settled_iff.1 ha with ⟨h, -⟩ | ⟨-, hassigned⟩ | ⟨-, -, hsized, rfl⟩
    · exact absurd h hfixed
    · rcases settled_iff.1 hb with ⟨h, -⟩ | ⟨-, hassigned'⟩ | ⟨-, -, hsized', rfl⟩
      · exact absurd h hfixed'
      · exact hd.injective hassigned hassigned'
      · rw [(hp.short_spec hassigned).2] at hsized'
        simp at hsized'
    · rcases settled_iff.1 hb with ⟨h, -⟩ | ⟨-, hassigned'⟩ | ⟨-, -, -, heq⟩
      · exact absurd h hfixed'
      · rw [(hp.short_spec hassigned').2] at hsized
        simp at hsized
      · exact heq
  · have halias : ∀ {x y v w : Bytes}, r.ptr64 = true → (x, y) ∈ pointerAliases →
        r.Settled x v → r.Settled y w → v = w := by
      intro x y v w hptr hmem hx hy
      obtain ⟨hfixed, -, -, hsized, hspelling⟩ := pointerAliases_spec (x, y) hmem
      rw [hp.spelling_of_isSizedInt hsized hy, hx.unique (rename_of_fixed hfixed), hptr]
      exact hspelling
    rintro (rfl | ⟨hptr, p, hmem, ⟨rfl, rfl⟩ | ⟨rfl, rfl⟩⟩)
    · exact ha.unique hb
    · exact halias hptr hmem ha hb
    · exact (halias hptr hmem hb ha).symm

/-- The quotes of a type of pointer size are not redundant, nor are those of what it is on 64-bit
targets. -/
lemma not_quotesRedundant_of_alias {p : Bytes × Bytes} (hp : p ∈ pointerAliases) :
    ¬ QuotesRedundant true p.1 ∧ ¬ QuotesRedundant true p.2 := by
  obtain ⟨hfixed, hentry, hnot, hsized, -⟩ := pointerAliases_spec p hp
  constructor
  · rintro (⟨-, -, -, hreserved⟩ | heq)
    · simp [isReserved, hfixed] at hreserved
    · exact hentry heq
  · rintro (⟨-, -, hwidth, -⟩ | heq)
    · rw [hsized] at hwidth
      simp at hwidth
    · exact hnot (by simp [heq, fixedNames])

/-- An identifier that stands for a name whose quotes are not redundant is that name. -/
lemma key_eq_iff_of_not_redundant {x name : Bytes} (hplain : isPlainName name = true)
    (hnot : ¬ QuotesRedundant r.ptr64 name) : r.key x = name ↔ x = name := by
  constructor
  · intro h
    rcases r.key_cases x with ⟨other, hother, -, hkey⟩ | ⟨-, hkey⟩
    · rw [← h, hkey] at hnot
      exact absurd hother hnot
    · rw [← hkey, h]
  · rintro rfl
    exact key_of_isPlainName hplain

/-- A renaming that has met two identifiers writes them alike if and only if they denote the same
binding. -/
theorem Proper.spelling_eq_iff_sameBinding (hp : r.Proper) {n : Nat} (hd : r.Distinct n)
    {x y v w : Bytes} (hx : r.Settled (r.key x) v) (hy : r.Settled (r.key y) w) :
    v = w ↔ SameBinding r.ptr64 x y := by
  rw [hp.spelling_eq_iff hd hx hy, key_eq_key_iff, SameBinding, or_assoc]
  refine or_congr_right (or_congr_right (and_congr_right fun hptr => ?_))
  -- the two types of an alias are never meant in quotes
  have hkey : ∀ p ∈ pointerAliases,
      (∀ z, r.key z = p.1 ↔ z = p.1) ∧ ∀ z, r.key z = p.2 ↔ z = p.2 := by
    intro p hmem
    obtain ⟨hfirst, hsecond⟩ := not_quotesRedundant_of_alias hmem
    obtain ⟨hfixed, -, -, hsized, -⟩ := pointerAliases_spec p hmem
    have hplain : isPlainName p.1 = true := (fixedNames_spec p.1 hfixed).1
    rw [← hptr] at hfirst hsecond
    exact ⟨fun z => key_eq_iff_of_not_redundant hplain hfirst,
      fun z => key_eq_iff_of_not_redundant (isPlainName_of_isSizedInt hsized) hsecond⟩
  refine exists_congr fun p => and_congr_right fun hmem => ?_
  rw [(hkey p hmem).1, (hkey p hmem).2, (hkey p hmem).1, (hkey p hmem).2]

end Renaming

end ZigGolf
