import ZigGolf.Bytes.Utf8
import ZigGolf.Proofs.Bytes.Class

/-!
# Well-formed texts, taken apart and put together

A text is well formed if it is a string of well-formed sequences.  Joining well-formed texts gives a
well-formed text, and a well-formed text may be cut on either side of an ASCII byte, since no ASCII
byte continues a sequence.  The second fact is what keeps the tokens of a text well formed: a token
ends in an ASCII byte, or is followed by one, or by nothing.
-/

namespace ZigGolf.Utf8

/-- One well-formed sequence and nothing else. -/
def IsSequence (t : Bytes) : Prop := sequence? t = some (t, [])

/-- The texts in which no place is malformed. -/
def WellFormed (s : Bytes) : Prop := malformed? s = none

/-! ### Sequences -/

/-- What follows a sequence has no part in how the sequence is read. -/
lemma sequence?_append_of_some {s t rest : Bytes} (h : sequence? s = some (t, rest)) (r : Bytes) :
    sequence? (t ++ r) = some (t, r) := by
  unfold sequence? at h
  split at h
  · simp at h
  · repeat' split at h
    all_goals simp only [Option.some.injEq, Prod.mk.injEq, reduceCtorEq] at h
    all_goals
      obtain ⟨rfl, rfl⟩ := h
      simp only [sequence?, List.cons_append, List.nil_append, *, Bool.false_eq_true, ↓reduceIte]

/-- A text starts with a given sequence and goes on with a given rest exactly if it is the two of
them joined. -/
lemma sequence?_eq_some_iff {s t rest : Bytes} :
    sequence? s = some (t, rest) ↔ IsSequence t ∧ s = t ++ rest := by
  constructor
  · intro h
    have ht := sequence?_append_of_some h []
    rw [List.append_nil] at ht
    exact ⟨ht, (sequence?_append h).symm⟩
  · rintro ⟨ht, rfl⟩
    exact sequence?_append_of_some ht rest

lemma IsSequence.ne_nil {t : Bytes} (h : IsSequence t) : t ≠ [] := sequence?_ne_nil h

/-- An ASCII byte is a sequence by itself. -/
lemma isSequence_singleton {b : UInt8} (h : b < 0x80) : IsSequence [b] := by
  simp [IsSequence, sequence?, h]

/-- Continuation bytes are not ASCII. -/
lemma le_of_isContinuation (b : UInt8) (h : isContinuation b = true) : 0x80 ≤ b := by
  have hb : b &&& 0xC0 = 0x80 := by simpa [isContinuation] using h
  calc
    (0x80 : UInt8) = b &&& 0xC0 := hb.symm
    _ ≤ b := UInt8.and_le_left

/-- The bytes of a sequence behind its first continue it. -/
lemma IsSequence.isContinuation_of_mem_tail {a : UInt8} {t : Bytes} (h : IsSequence (a :: t)) :
    ∀ b ∈ t, isContinuation b = true := by
  unfold IsSequence sequence? at h
  dsimp only at h
  repeat' split at h
  all_goals simp only [Option.some.injEq, Prod.mk.injEq, reduceCtorEq] at h
  all_goals obtain ⟨hcons, rfl⟩ := h
  all_goals simp_all

/-- No byte of a sequence but its first is an ASCII byte. -/
lemma IsSequence.le_of_mem_tail {a : UInt8} {t : Bytes} (h : IsSequence (a :: t)) :
    ∀ b ∈ t, 0x80 ≤ b :=
  fun b hb => le_of_isContinuation b (h.isContinuation_of_mem_tail b hb)

/-- The first byte of a sequence tells its length. -/
lemma sequenceLength_eq : ∀ a : UInt8,
    (a < 0x80 → sequenceLength a = 1) ∧
      ((0xC2 ≤ a && a ≤ 0xDF) = true → sequenceLength a = 2) ∧
      ((0xE0 ≤ a && a ≤ 0xEF) = true → sequenceLength a = 3) ∧
      ((0xF0 ≤ a && a ≤ 0xF4) = true → sequenceLength a = 4) := by
  decide +kernel

/-- The first byte of a sequence tells its length. -/
lemma IsSequence.length_eq {a : UInt8} {t : Bytes} (h : IsSequence (a :: t)) :
    (a :: t).length = sequenceLength a := by
  obtain ⟨hone, htwo, hthree, hfour⟩ := sequenceLength_eq a
  unfold IsSequence sequence? at h
  dsimp only at h
  split at h
  · next ha =>
    rw [hone ha]
    simp_all
  split at h
  · next ha =>
    rw [htwo ha]
    split at h
    · split at h <;> simp_all
    · simp at h
  split at h
  · next ha =>
    rw [hthree ha]
    split at h
    · split at h <;> simp_all
    · simp at h
  split at h
  · next ha =>
    rw [hfour ha]
    split at h
    · split at h <;> simp_all
    · simp at h
  · simp at h

/-- The bytes that start a sequence are no continuation bytes, and the lenient reading asks for as
many continuation bytes as there are. -/
lemma lead_spec : ∀ a : UInt8,
    a < 0x80 ∨ (0xC2 ≤ a && a ≤ 0xDF) = true ∨ (0xE0 ≤ a && a ≤ 0xEF) = true ∨
        (0xF0 ≤ a && a ≤ 0xF4) = true →
      isContinuation a = false ∧
        (lead? a).map (fun lead => lead.2 + 1) = some (sequenceLength a) := by
  decide +kernel

/-- The first byte of a sequence is no continuation byte, and it tells how many of them follow. -/
lemma IsSequence.lead_spec {a : UInt8} {t : Bytes} (h : IsSequence (a :: t)) :
    isContinuation a = false ∧
      (lead? a).map (fun lead => lead.2 + 1) = some (sequenceLength a) := by
  unfold IsSequence sequence? at h
  apply Utf8.lead_spec
  dsimp only at h
  split at h
  · next ha => exact .inl ha
  split at h
  · next ha => exact .inr (.inl ha)
  split at h
  · next ha => exact .inr (.inr (.inl ha))
  split at h
  · next ha => exact .inr (.inr (.inr ha))
  · simp at h

/-! ### Well-formed texts -/

/-- A text is well formed if its sequences leave nothing over. -/
lemma wellFormed_iff {s : Bytes} : WellFormed s ↔ (sequences s).2 = [] := by
  unfold WellFormed malformed?
  split
  · next h => simp [h]
  · next h => simp [h]

@[simp] lemma wellFormed_nil : WellFormed [] := by
  rw [wellFormed_iff, sequences, unroll_of_none]
  rfl

/-- A sequence at the front of a text has no part in whether the text is well formed. -/
lemma wellFormed_append_iff_of_isSequence {t r : Bytes} (h : IsSequence t) :
    WellFormed (t ++ r) ↔ WellFormed r := by
  have hstep : sequence? (t ++ r) = some (t, r) := sequence?_eq_some_iff.2 ⟨h, rfl⟩
  rw [wellFormed_iff, wellFormed_iff, sequences, unroll_of_some _ _ _ hstep]
  rfl

/-- A well-formed text that is not empty starts with a sequence. -/
lemma WellFormed.exists_sequence {s : Bytes} (h : WellFormed s) (hne : s ≠ []) :
    ∃ t r, IsSequence t ∧ s = t ++ r ∧ WellFormed r := by
  cases hstep : sequence? s with
  | none =>
    rw [wellFormed_iff, sequences, unroll_of_none _ _ _ hstep] at h
    exact absurd h hne
  | some p =>
    obtain ⟨t, r⟩ := p
    obtain ⟨ht, rfl⟩ := sequence?_eq_some_iff.1 hstep
    exact ⟨t, r, ht, rfl, (wellFormed_append_iff_of_isSequence ht).1 h⟩

/-- Induction along the sequences of a well-formed text. -/
@[elab_as_elim] lemma WellFormed.induction {motive : (s : Bytes) → WellFormed s → Prop}
    (nil : motive [] wellFormed_nil)
    (append : ∀ t r (ht : IsSequence t) (hr : WellFormed r), motive r hr →
      motive (t ++ r) ((wellFormed_append_iff_of_isSequence ht).2 hr))
    {s : Bytes} (h : WellFormed s) : motive s h := by
  induction hn : s.length using Nat.strongRecOn generalizing s with
  | _ n ih =>
    by_cases hs : s = []
    · subst hs
      exact nil
    · obtain ⟨t, r, ht, rfl, hr⟩ := h.exists_sequence hs
      have hpos := List.length_pos_iff.2 ht.ne_nil
      have hlt : r.length < n := by
        rw [← hn, List.length_append]
        omega
      exact append t r ht hr (ih r.length hlt hr rfl)

/-- Well-formed texts may be joined. -/
lemma WellFormed.append {a b : Bytes} (ha : WellFormed a) (hb : WellFormed b) :
    WellFormed (a ++ b) := by
  induction ha using WellFormed.induction with
  | nil => exact hb
  | append t r ht _ ih =>
    rw [List.append_assoc]
    exact (wellFormed_append_iff_of_isSequence ht).2 ih

/-- The sequences that a text starts with make up a well-formed text. -/
lemma wellFormed_sequences (s : Bytes) : WellFormed (sequences s).1.flatten := by
  induction hn : s.length using Nat.strongRecOn generalizing s with
  | _ n ih =>
    cases hstep : sequence? s with
    | none =>
      rw [sequences, unroll_of_none _ _ _ hstep]
      exact wellFormed_nil
    | some p =>
      obtain ⟨t, r⟩ := p
      rw [sequences, unroll_of_some _ _ _ hstep, List.flatten_cons]
      exact (wellFormed_append_iff_of_isSequence (sequence?_eq_some_iff.1 hstep).1).2
        (ih r.length (hn ▸ sequence?_shrinks hstep) r rfl)

/-- A text stops being well formed behind a well-formed text, where no sequence stands. -/
lemma exists_split_of_malformed? {s : Bytes} {offset : Nat} {b : UInt8}
    (h : malformed? s = some (offset, b)) :
    ∃ a r, s = a ++ b :: r ∧ a.length = offset ∧ WellFormed a ∧ sequence? (b :: r) = none := by
  have happend := sequences_append s
  have hdone := wellFormed_sequences s
  have hstop : sequence? (sequences s).2 = none := step_unroll _ _ _ s
  unfold malformed? at h
  split at h
  · next done b' rest hsplit =>
    obtain ⟨rfl, rfl⟩ := Prod.mk.inj (Option.some.inj h)
    rw [hsplit] at happend hdone hstop
    exact ⟨done.flatten, rest, happend.symm, rfl, hdone, hstop⟩
  · simp at h

/-- A text may be cut on either side of an ASCII byte. -/
lemma wellFormed_append_cons_iff {a r : Bytes} {b : UInt8} (hb : b < 0x80) :
    WellFormed (a ++ b :: r) ↔ WellFormed a ∧ WellFormed r := by
  have hcons : WellFormed (b :: r) ↔ WellFormed r :=
    wellFormed_append_iff_of_isSequence (isSequence_singleton hb)
  constructor
  · intro h
    generalize hs : a ++ b :: r = s at h
    -- along the sequences of the whole text, `a` loses one sequence after the other
    induction h using WellFormed.induction generalizing a with
    | nil => simp at hs
    | append t rest ht hrest ih =>
      rcases List.append_eq_append_iff.1 hs with ⟨u, rfl, hu⟩ | ⟨u, rfl, hu⟩
      · cases u with
        | nil =>
          -- the sequence is all of `a`
          rw [List.append_nil] at ht
          rw [List.nil_append] at hu
          rw [← hu] at hrest
          refine ⟨?_, hcons.1 hrest⟩
          have := (wellFormed_append_iff_of_isSequence (r := []) ht).2 wellFormed_nil
          rwa [List.append_nil] at this
        | cons c u =>
          -- the byte lies in the sequence, so it is the first byte of it
          rw [List.cons_append, List.cons.injEq] at hu
          obtain ⟨rfl, rfl⟩ := hu
          cases a with
          | nil =>
            refine ⟨wellFormed_nil, ?_⟩
            have hwhole := (wellFormed_append_iff_of_isSequence ht).2 hrest
            exact hcons.1 hwhole
          | cons x a =>
            have hle : 0x80 ≤ b := ht.le_of_mem_tail b (by simp)
            exact absurd hb (UInt8.not_lt.2 hle)
      · obtain ⟨hu', hr⟩ := ih hu.symm
        exact ⟨(wellFormed_append_iff_of_isSequence ht).2 hu', hr⟩
  · rintro ⟨ha, hr⟩
    exact ha.append (hcons.2 hr)

/-- What stands before a well-formed text in a well-formed text is well formed: no sequence goes on
into the second part, since that part starts with a sequence of its own. -/
lemma WellFormed.of_append {a b : Bytes} (h : WellFormed (a ++ b)) (hb : WellFormed b) :
    WellFormed a := by
  generalize hs : a ++ b = s at h
  induction h using WellFormed.induction generalizing a with
  | nil =>
    rw [(List.append_eq_nil_iff.1 hs).1]
    exact wellFormed_nil
  | append t rest ht hrest ih =>
    rcases List.append_eq_append_iff.1 hs with ⟨u, rfl, rfl⟩ | ⟨u, rfl, hu⟩
    · cases a with
      | nil => exact wellFormed_nil
      | cons x a =>
        cases u with
        | nil =>
          have halone := (wellFormed_append_iff_of_isSequence (r := []) ht).2 wellFormed_nil
          rwa [List.append_nil, List.append_nil] at halone
        | cons y u =>
          -- a byte would both continue a sequence and start one
          obtain ⟨v, r, hv, hsplit, -⟩ := hb.exists_sequence (by simp)
          obtain ⟨z, v, rfl⟩ := List.exists_cons_of_ne_nil hv.ne_nil
          obtain rfl : y = z := (List.cons.inj hsplit).1
          have hcontinues := ht.isContinuation_of_mem_tail y (by simp)
          rw [hv.lead_spec.1] at hcontinues
          exact absurd hcontinues (by decide)
    · exact (wellFormed_append_iff_of_isSequence ht).2 (ih hu.symm)

/-- A text of ASCII bytes is well formed. -/
lemma wellFormed_of_ascii {s : Bytes} (h : ∀ b ∈ s, b < 0x80) : WellFormed s := by
  induction s with
  | nil => exact wellFormed_nil
  | cons b s ih =>
    have hs : WellFormed s := ih fun c hc => h c (List.mem_cons_of_mem b hc)
    exact (wellFormed_append_cons_iff (a := []) (h b List.mem_cons_self)).2 ⟨wellFormed_nil, hs⟩

/-- A well-formed text may be cut where the first part ends in an ASCII byte, and where the second
part starts with one or is empty. -/
lemma WellFormed.cut {a b : Bytes} (h : WellFormed (a ++ b))
    (hcut : (∃ c ∈ a.getLast?, c < 0x80) ∨ ∀ c ∈ b.head?, c < 0x80) :
    WellFormed a ∧ WellFormed b := by
  rcases hcut with ⟨c, hc, hlt⟩ | hhead
  · obtain ⟨a, rfl⟩ := List.getLast?_eq_some_iff.1 hc
    rw [List.append_assoc, List.singleton_append, wellFormed_append_cons_iff hlt] at h
    exact ⟨h.1.append (wellFormed_of_ascii (by simpa using hlt)), h.2⟩
  · cases b with
    | nil => exact ⟨by simpa using h, wellFormed_nil⟩
    | cons c b =>
      have hlt : c < 0x80 := hhead c rfl
      rw [wellFormed_append_cons_iff hlt] at h
      exact ⟨h.1, (wellFormed_append_cons_iff (a := []) hlt).2 ⟨wellFormed_nil, h.2⟩⟩

end ZigGolf.Utf8
