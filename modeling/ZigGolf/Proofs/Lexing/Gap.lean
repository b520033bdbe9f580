import ZigGolf.Proofs.Lexing.Reading

/-!
# What stands between tokens

`IsGap g r` says that the text `g`, with the text `r` behind it, is a gap: blanks, and comments that
are no tokens and run up to the end of their line.  The lexer passes over nothing else in front of a
token (`isGapBefore_of_nextLexeme?`), with one exception: of a quoted identifier that does not read
as one, the sigil is left over.  And it passes over every gap (`IsGap.nextLexeme?_append`).
-/

namespace ZigGolf

/-! ### Gaps -/

/-- What may stand behind the two slashes of a comment that is no token, up to the end of its
line. -/
structure IsPlainLine (line : Bytes) : Prop where
  lineFeed_notMem : lineFeed ∉ line
  head?_ne : line.head? ≠ some (byte '!')
  four_slashes : ∀ rest, line = slash :: rest → rest.head? = some slash

/-- The gaps, in front of a text.  A comment ends in front of a line feed or with the whole text. -/
inductive IsGap : Bytes → Bytes → Prop
  | nil {r : Bytes} : IsGap [] r
  | blank {b : UInt8} {g r : Bytes} : isBlank b = true → IsGap g r → IsGap (b :: g) r
  | comment {line g r : Bytes} : IsPlainLine line → (∀ b ∈ (g ++ r).head?, b = lineFeed) →
      IsGap g r → IsGap (slash :: slash :: (line ++ g)) r

variable {s t g r : Bytes} {line : Bytes}

/-- A comment is a doc comment by what stands directly behind its two slashes. -/
lemma startsDocComment_eq_false_iff (hr : ∀ b ∈ r.head?, b = lineFeed) :
    startsDocComment (slash :: slash :: (line ++ r)) = false ↔
      line.head? ≠ some (byte '!') ∧ ∀ rest, line = slash :: rest → rest.head? = some slash := by
  rcases line with - | ⟨c, rest⟩
  · cases r with
    | nil => simp [startsDocComment]
    | cons b r =>
      obtain rfl : b = lineFeed := hr b rfl
      simp +decide [startsDocComment]
  · have hhead : (rest ++ r).head? = some slash ↔ rest.head? = some slash := by
      cases rest with
      | nil => exact ⟨fun h => absurd (hr slash h) (by decide), fun h => absurd h (by simp)⟩
      | cons b rest => rfl
    simp only [startsDocComment, List.cons_append, beq_self_eq_true, Bool.and_self, Bool.true_and,
      Bool.or_eq_false_iff, Bool.and_eq_false_imp, beq_eq_false_iff_ne, beq_iff_eq,
      bne_eq_false_iff_eq, hhead, List.head?_cons, Option.some.injEq, List.cons.injEq, ne_eq]
    constructor
    · rintro ⟨hbang, hslash⟩
      refine ⟨hbang, ?_⟩
      rintro rest' ⟨rfl, rfl⟩
      exact hslash rfl
    · rintro ⟨hbang, hslash⟩
      exact ⟨hbang, fun hc => hslash rest ⟨hc, rfl⟩⟩

/-- One item of a gap is a blank, or a comment that is no token and runs up to the end of its
line. -/
lemma gapItem?_eq_some_iff :
    gapItem? s = some (t, r) ↔ s = t ++ r ∧
      ((∃ b, isBlank b = true ∧ t = [b]) ∨
        ∃ line, IsPlainLine line ∧ (∀ b ∈ r.head?, b = lineFeed) ∧ t = slash :: slash :: line) := by
  constructor
  · intro h
    refine ⟨(gapItem?_append h).symm, ?_⟩
    unfold gapItem? at h
    split at h
    · simp at h
    · next b rest =>
      split at h
      · next hb =>
        obtain ⟨rfl, -⟩ := Prod.mk.inj (Option.some.inj h)
        exact .inl ⟨b, hb, rfl⟩
      · split at h
        · next hcomment =>
          rw [Bool.and_eq_true, Bool.not_eq_true'] at hcomment
          obtain ⟨c, rest, rfl⟩ : ∃ c rest', rest = c :: rest' := by
            cases rest with
            | nil => simp [startsComment] at hcomment
            | cons c rest => exact ⟨c, rest, rfl⟩
          obtain ⟨rfl, rfl⟩ : b = slash ∧ c = slash := by simpa [startsComment] using hcomment.1
          obtain ⟨rfl, rfl⟩ := Prod.mk.inj (Option.some.inj h)
          have hend := eq_lineFeed_of_mem_head?_afterFirstLine rest
          have hdoc := hcomment.2
          rw [← firstLine_append_afterFirstLine rest, startsDocComment_eq_false_iff hend] at hdoc
          exact .inr ⟨firstLine rest, ⟨lineFeed_notMem_firstLine rest, hdoc.1, hdoc.2⟩, hend, rfl⟩
        · simp at h
  · rintro ⟨rfl, ⟨b, hb, rfl⟩ | ⟨line, hline, hr, rfl⟩⟩
    · exact gapItem?_blank hb r
    · have hdoc := (startsDocComment_eq_false_iff hr).2 ⟨hline.head?_ne, hline.four_slashes⟩
      have hmem : lineFeed ∉ slash :: slash :: line := by simp +decide [hline.lineFeed_notMem]
      obtain ⟨hfirst, hafter⟩ := firstLine_append hmem hr
      simp only [List.cons_append] at hfirst hafter ⊢
      simp +decide [gapItem?, startsComment, hdoc, hfirst, hafter]

/-- What the lexer passes over in front of a token is a gap. -/
lemma isGap_splitGap (s : Bytes) : IsGap (splitGap s).1.flatten (splitGap s).2 := by
  induction hn : s.length using Nat.strongRecOn generalizing s with
  | _ n ih =>
    cases h : gapItem? s with
    | none =>
      rw [splitGap_of_none h]
      exact .nil
    | some p =>
      obtain ⟨t, rest⟩ := p
      have hgap := ih rest.length (hn ▸ gapItem?_shrinks h) rest rfl
      have hrest := splitGap_append rest
      rw [splitGap_of_some h, List.flatten_cons]
      obtain ⟨-, ⟨b, hb, rfl⟩ | ⟨line, hline, hend, rfl⟩⟩ := gapItem?_eq_some_iff.1 h
      · exact .blank hb hgap
      · rw [← hrest] at hend
        exact .comment hline hend hgap

/-- Every gap is passed over, and belongs to the token behind it. -/
lemma IsGap.nextLexeme?_append (h : IsGap g r) :
    nextLexeme? (g ++ r) =
      (nextLexeme? r).map fun p => ({ p.1 with gap := g ++ p.1.gap }, p.2) := by
  induction h with
  | nil => simp
  | @blank b g r hb _ ih =>
    rw [List.cons_append, nextLexeme?_of_some (gapItem?_blank hb (g ++ r)), ih, Option.map_map]
    simp [Function.comp_def]
  | @comment line g r hline hend _ ih =>
    have hitem : gapItem? (slash :: slash :: line ++ (g ++ r)) =
        some (slash :: slash :: line, g ++ r) :=
      gapItem?_eq_some_iff.2 ⟨rfl, .inr ⟨line, hline, hend, rfl⟩⟩
    have hsplit : slash :: slash :: (line ++ g) ++ r = slash :: slash :: line ++ (g ++ r) := by simp
    rw [hsplit, nextLexeme?_of_some hitem, ih, Option.map_map]
    simp [Function.comp_def]

/-- A gap in front of a token is one in front of any text: its last comment has a line feed behind
it, which belongs to the gap. -/
lemma IsGap.of_ne_lineFeed {b : UInt8} (h : IsGap g (b :: r)) (hb : b ≠ lineFeed) (r' : Bytes) :
    IsGap g r' := by
  generalize hs : b :: r = s at h
  induction h with
  | nil => exact .nil
  | blank hblank _ ih => exact .blank hblank (ih hs)
  | @comment line g s hline hend _ ih =>
    refine .comment hline ?_ (ih hs)
    cases g with
    | nil =>
      rw [← hs] at hend
      exact absurd (hend b rfl) hb
    | cons c g => exact hend

/-! ### Gaps in front of tokens -/

/-- What may stand in front of a token: a gap, and if the token is what is left of a quoted
identifier that does not read as one, its sigil. -/
inductive IsGapBefore (k : Kind) (text : Bytes) : Bytes → Bytes → Prop
  | gap {g r : Bytes} : IsGap g r → IsGapBefore k text g r
  | sigil {g r : Bytes} : k = .invalid → text.head? = some quote → IsGap g (atSign :: r) →
      IsGapBefore k text (g ++ [atSign]) r

/-- In front of a valid token stands a gap and nothing else. -/
lemma IsGapBefore.isGap {k : Kind} (h : IsGapBefore k t g r) (hk : k ≠ .invalid) : IsGap g r := by
  cases h with
  | gap hgap => exact hgap
  | sigil hinvalid => exact absurd hinvalid hk

lemma head?_cutString (s : Bytes) : (cutString (quote :: s)).2.1.head? = some quote := by
  have hne := cutString_ne_nil s
  have happend := cutString_append (quote :: s)
  obtain ⟨b, t, ht⟩ := List.exists_cons_of_ne_nil hne
  rw [ht] at happend ⊢
  rw [(List.cons.inj happend).1]
  rfl

/-- A cut token has nothing in front of it, or it is an invalid string behind a sigil. -/
lemma gap_cutToken (b : UInt8) (s : Bytes) :
    (cutToken b s).1.gap = [] ∨
      (cutToken b s).1.gap = [atSign] ∧ (cutToken b s).1.kind = .invalid ∧
        (cutToken b s).1.text.head? = some quote := by
  unfold cutToken
  repeat' split
  all_goals try exact .inl rfl
  -- only what the sigil introduces is left
  unfold cutAfterSigil
  split
  · next hquote =>
    obtain ⟨s, rfl⟩ := List.head?_eq_some_iff.1 hquote
    have hhead := head?_cutString s
    split
    · next hcut =>
      rw [hcut] at hhead
      exact .inr ⟨rfl, rfl, hhead⟩
    · exact .inl rfl
  · split
    · exact .inl rfl
    · exact .inl rfl

/-- What the lexer passes over in front of a token is what may stand there. -/
lemma isGapBefore_of_nextLexeme? {l : Lexeme} (h : nextLexeme? s = some (l, r)) :
    IsGapBefore l.kind l.text l.gap (l.text ++ r) := by
  have hgap := isGap_splitGap s
  unfold nextLexeme? at h
  split at h
  · simp at h
  · next gap b rest hsplit =>
    rw [hsplit] at hgap
    have happend := cutToken_append b rest
    have hcases := gap_cutToken b rest
    rcases hcut : cutToken b rest with ⟨l', r'⟩
    rw [hcut] at h happend hcases
    obtain ⟨rfl, rfl⟩ := Prod.mk.inj (Option.some.inj h)
    dsimp only at happend hcases hgap ⊢
    rw [List.append_assoc] at happend
    rw [← happend] at hgap
    rcases hcases with hnil | ⟨hsigil, hkind, hhead⟩
    · rw [hnil] at hgap ⊢
      rw [List.append_nil]
      exact .gap hgap
    · rw [hsigil] at hgap ⊢
      exact .sigil hkind hhead hgap

/-- A text without a token is a gap. -/
lemma isGap_of_nextLexeme? (h : nextLexeme? s = none) : IsGap s [] := by
  have hgap := isGap_splitGap s
  have happend := splitGap_append s
  unfold nextLexeme? at h
  split at h
  · next gap hsplit =>
    rw [hsplit] at hgap happend
    rw [List.append_nil] at happend
    rwa [happend] at hgap
  · simp at h

end ZigGolf
