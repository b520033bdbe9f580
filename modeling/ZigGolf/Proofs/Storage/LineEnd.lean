import ZigGolf.Storage.LineEnd
import ZigGolf.Proofs.Bytes.Utf8

/-!
# Normalised line ends

Normalising the line ends of a text changes nothing but the line ends of two bytes: a text without a
line feed stays as it is, and a text may be cut anywhere but within a line end
(`normalizeLineEnds_append`).  Read backwards, every part of a normalised text without a line feed
stands in the text itself (`exists_of_normalizeLineEnds_eq_append`).

Position by position, exactly the carriage returns directly before a line feed are dropped
(`normalizeLineEnds_eq_withoutReturns`).
-/

namespace ZigGolf

variable {a b s t r : Bytes}

/-! ### Cases -/

/-- Induction along the line ends of a text. -/
@[elab_as_elim] lemma lineEnds_induction {motive : Bytes → Prop} (nil : motive [])
    (pair : ∀ s, motive s → motive (carriageReturn :: lineFeed :: s))
    (cons : ∀ b s, ¬(b = carriageReturn ∧ s.head? = some lineFeed) → motive s → motive (b :: s))
    (s : Bytes) : motive s := by
  induction hn : s.length using Nat.strongRecOn generalizing s with
  | _ n ih =>
    cases s with
    | nil => exact nil
    | cons b s =>
      by_cases hb : b = carriageReturn ∧ s.head? = some lineFeed
      · obtain ⟨rfl, hhead⟩ := hb
        obtain ⟨s, rfl⟩ := List.head?_eq_some_iff.1 hhead
        have hlt : s.length < n := by
          rw [← hn, List.length_cons, List.length_cons]
          omega
        exact pair s (ih s.length hlt s rfl)
      · have hlt : s.length < n := by
          rw [← hn, List.length_cons]
          omega
        exact cons b s hb (ih s.length hlt s rfl)

/-- A byte other than a carriage return stays. -/
lemma normalizeLineEnds_cons_of_ne {b : UInt8} (hb : b ≠ carriageReturn) (s : Bytes) :
    normalizeLineEnds (b :: s) = b :: normalizeLineEnds s :=
  normalizeLineEnds_cons fun h => hb h.1

/-- A normalised text starts with a line feed only where a line end stands. -/
lemma exists_of_normalizeLineEnds_eq_lineFeed_cons (h : normalizeLineEnds s = lineFeed :: r) :
    ∃ s', normalizeLineEnds s' = r ∧
      (s = lineFeed :: s' ∨ s = carriageReturn :: lineFeed :: s') := by
  induction s using lineEnds_induction with
  | nil => simp at h
  | pair s =>
    rw [normalizeLineEnds_pair] at h
    exact ⟨s, (List.cons.inj h).2, .inr rfl⟩
  | cons b s hb =>
    rw [normalizeLineEnds_cons hb] at h
    obtain ⟨rfl, rfl⟩ := List.cons.inj h
    exact ⟨s, rfl, .inl rfl⟩

/-- Any other byte at the front of a normalised text stands at the front of the text. -/
lemma exists_of_normalizeLineEnds_eq_cons {b : UInt8} (h : normalizeLineEnds s = b :: r)
    (hb : b ≠ lineFeed) : ∃ s', s = b :: s' ∧ normalizeLineEnds s' = r := by
  induction s using lineEnds_induction with
  | nil => simp at h
  | pair s =>
    rw [normalizeLineEnds_pair] at h
    exact absurd (List.cons.inj h).1.symm hb
  | cons c s hc =>
    rw [normalizeLineEnds_cons hc] at h
    obtain ⟨rfl, rfl⟩ := List.cons.inj h
    exact ⟨s, rfl, rfl⟩

/-- Only the empty text is normalised to the empty text. -/
lemma normalizeLineEnds_eq_nil_iff : normalizeLineEnds s = [] ↔ s = [] := by
  induction s using lineEnds_induction with
  | nil => simp
  | pair s => simp
  | cons b s hb => simp [normalizeLineEnds_cons hb]

/-! ### Texts put together and taken apart -/

/-- A text without a line feed stays as it is. -/
lemma normalizeLineEnds_of_notMem (h : lineFeed ∉ s) : normalizeLineEnds s = s := by
  induction s with
  | nil => exact normalizeLineEnds_nil
  | cons b s ih =>
    have hs : lineFeed ∉ s := fun hmem => h (List.mem_cons_of_mem b hmem)
    rw [normalizeLineEnds_cons, ih hs]
    rintro ⟨-, hhead⟩
    exact hs (List.mem_of_head? hhead)

/-- A text may be cut anywhere but within a line end. -/
lemma normalizeLineEnds_append
    (h : ¬(a.getLast? = some carriageReturn ∧ b.head? = some lineFeed)) :
    normalizeLineEnds (a ++ b) = normalizeLineEnds a ++ normalizeLineEnds b := by
  -- the last byte of a text is the last byte of what is left of it, if anything is left
  have hlast : ∀ {c : UInt8} {s : Bytes}, s.getLast? = some carriageReturn →
      (c :: s).getLast? = some carriageReturn := by
    intro c s hs
    rw [List.getLast?_cons, hs]
    rfl
  induction a using lineEnds_induction with
  | nil => simp
  | pair s ih =>
    have hs := ih fun hs => h ⟨hlast (hlast hs.1), hs.2⟩
    rw [List.cons_append, List.cons_append, normalizeLineEnds_pair, normalizeLineEnds_pair, hs,
      List.cons_append]
  | cons c s hc ih =>
    have hs := ih fun hs => h ⟨hlast hs.1, hs.2⟩
    have hc' : ¬(c = carriageReturn ∧ (s ++ b).head? = some lineFeed) := by
      rintro ⟨rfl, hhead⟩
      cases s with
      | nil => exact h ⟨rfl, hhead⟩
      | cons d s => exact hc ⟨rfl, hhead⟩
    rw [List.cons_append, normalizeLineEnds_cons hc', normalizeLineEnds_cons hc, hs,
      List.cons_append]

/-- The end of a line becomes a line feed, and all else of the line stays. -/
lemma exists_normalizeLineEnds_line (hline : lineFeed ∉ s) (r : Bytes) :
    ∃ line, lineFeed ∉ line ∧
      normalizeLineEnds (s ++ lineFeed :: r) = line ++ lineFeed :: normalizeLineEnds r := by
  have hfeed : normalizeLineEnds (lineFeed :: r) = lineFeed :: normalizeLineEnds r :=
    normalizeLineEnds_cons_of_ne (by decide) r
  by_cases hlast : s.getLast? = some carriageReturn
  · obtain ⟨line, rfl⟩ := List.getLast?_eq_some_iff.1 hlast
    have hmem : lineFeed ∉ line := fun h => hline (List.mem_append_left _ h)
    refine ⟨line, hmem, ?_⟩
    rw [List.append_assoc, List.singleton_append, normalizeLineEnds_append (by simp +decide),
      normalizeLineEnds_pair, normalizeLineEnds_of_notMem hmem]
  · refine ⟨s, hline, ?_⟩
    rw [normalizeLineEnds_append fun h => hlast h.1, hfeed, normalizeLineEnds_of_notMem hline]

/-- Whatever stands in a normalised text up to a line end stands in the text itself. -/
lemma exists_of_normalizeLineEnds_eq_append (h : normalizeLineEnds s = t ++ r)
    (ht : lineFeed ∉ t) : ∃ s', s = t ++ s' ∧ normalizeLineEnds s' = r := by
  induction t generalizing s with
  | nil => exact ⟨s, rfl, h⟩
  | cons b t ih =>
    rw [List.mem_cons, not_or] at ht
    obtain ⟨s, rfl, hs⟩ := exists_of_normalizeLineEnds_eq_cons h (Ne.symm ht.1)
    obtain ⟨s', rfl, hs'⟩ := ih hs ht.2
    exact ⟨s', rfl, hs'⟩

/-! ### Positions -/

/-- At a position of a text stands a carriage return, and a line feed stands right behind it. -/
def ReturnAt (s : Bytes) (i : Nat) : Prop := s[i]? = some carriageReturn ∧ s[i + 1]? = some lineFeed

instance (s : Bytes) (i : Nat) : Decidable (ReturnAt s i) :=
  inferInstanceAs (Decidable (s[i]? = some carriageReturn ∧ s[i + 1]? = some lineFeed))

/-- The bytes of a text at all positions but those of carriage returns directly before a line
feed. -/
def withoutReturns (s : Bytes) : Bytes :=
  (List.range s.length).filterMap fun i => if ReturnAt s i then none else s[i]?

/-- A carriage return in front is dropped if a line feed follows. -/
lemma returnAt_zero_iff {b : UInt8} :
    ReturnAt (b :: s) 0 ↔ b = carriageReturn ∧ s.head? = some lineFeed := by
  rw [ReturnAt, List.getElem?_cons_zero, Nat.zero_add, List.getElem?_cons_succ,
    ← List.head?_eq_getElem?, Option.some.injEq]

/-- The bytes that stay are gone through one by one. -/
lemma withoutReturns_cons (b : UInt8) (s : Bytes) :
    withoutReturns (b :: s) =
      if b = carriageReturn ∧ s.head? = some lineFeed then withoutReturns s
      else b :: withoutReturns s := by
  have htail : (List.map Nat.succ (List.range s.length)).filterMap
      (fun i => if ReturnAt (b :: s) i then none else (b :: s)[i]?) = withoutReturns s := by
    rw [List.filterMap_map]
    rfl
  rw [withoutReturns, List.length_cons, List.range_succ_eq_map, List.filterMap_cons, htail,
    List.getElem?_cons_zero]
  by_cases h : b = carriageReturn ∧ s.head? = some lineFeed
  · rw [if_pos h, if_pos (returnAt_zero_iff.2 h)]
  · rw [if_neg h, if_neg fun hreturn => h (returnAt_zero_iff.1 hreturn)]

/-- Exactly the carriage returns directly before a line feed are dropped. -/
lemma normalizeLineEnds_eq_withoutReturns (s : Bytes) : normalizeLineEnds s = withoutReturns s := by
  induction s using lineEnds_induction with
  | nil => exact normalizeLineEnds_nil
  | pair s ih =>
    rw [normalizeLineEnds_pair, withoutReturns_cons, if_pos ⟨rfl, rfl⟩, withoutReturns_cons,
      if_neg fun h => absurd h.1 (by decide), ih]
  | cons b s hb ih => rw [normalizeLineEnds_cons hb, withoutReturns_cons, if_neg hb, ih]

/-! ### UTF-8 -/

/-- A text is in UTF-8 if and only if it is so with its line ends normalised. -/
lemma wellFormed_normalizeLineEnds_iff :
    Utf8.WellFormed (normalizeLineEnds s) ↔ Utf8.WellFormed s := by
  -- the text in front may break off within a sequence
  suffices hfront : ∀ a : Bytes,
      Utf8.WellFormed (a ++ normalizeLineEnds s) ↔ Utf8.WellFormed (a ++ s) from hfront []
  induction s using lineEnds_induction with
  | nil => simp
  | pair s ih =>
    intro a
    have hs : Utf8.WellFormed (normalizeLineEnds s) ↔ Utf8.WellFormed s := ih []
    have hfeed : Utf8.WellFormed (lineFeed :: s) ↔ Utf8.WellFormed s := by
      rw [← List.nil_append (lineFeed :: s), Utf8.wellFormed_append_cons_iff (by decide)]
      simp
    rw [normalizeLineEnds_pair, Utf8.wellFormed_append_cons_iff (by decide),
      Utf8.wellFormed_append_cons_iff (by decide), hs, hfeed]
  | cons b s hb ih =>
    intro a
    have hs := ih (a ++ [b])
    rw [List.append_assoc, List.append_assoc] at hs
    rw [normalizeLineEnds_cons hb]
    exact hs

end ZigGolf
