import ZigGolf.Proofs.Minification.Spacing

/-!
# Reading back what was written

The text of a list of pieces that are laid out is read back as these pieces if no piece glues to the
pieces behind it (`Laid.lexemes_join`).  Conversely a gluing spot always shows in the kinds of what
is read back (`Laid.hasGluingSpot_eq_false`).  Most gluing spots show at once, in a token of another
kind.  Two slashes do not: they start a comment, and what is read next stands behind the end of a
later line.  But there, too, tokens are laid out, and so the two slashes are not made up for.
-/

namespace ZigGolf

variable {last : Kind} {lastQuoted : Bool} {p : Piece} {ps : List Piece}

/-! ### Pieces as lexemes -/

/-- A piece as a lexeme: the space before it is the gap. -/
def Piece.lexeme (p : Piece) : Lexeme := ⟨if p.spaced then [space] else [], p.kind, p.text⟩

/-- The kinds of the lexemes of a text. -/
def lexemeKinds (s : Bytes) : List Kind := (lexemes s).map Lexeme.kind

/-- The kinds of a text are that of its first lexeme and those of the rest. -/
lemma lexemeKinds_of_some {s r : Bytes} {l : Lexeme} (h : nextLexeme? s = some (l, r)) :
    lexemeKinds s = l.kind :: lexemeKinds r := by
  rw [lexemeKinds, lexemes_of_some h]
  rfl

/-- A gap item in front of a text does not change the kinds. -/
lemma lexemeKinds_of_gapItem? {s t r : Bytes} (h : gapItem? s = some (t, r)) :
    lexemeKinds s = lexemeKinds r := by
  have hnext := nextLexeme?_of_some h
  cases hr : nextLexeme? r with
  | none =>
    rw [hr] at hnext
    rw [lexemeKinds, lexemeKinds, lexemes_of_none hnext, lexemes_of_none hr]
  | some q =>
    rw [hr] at hnext
    rw [lexemeKinds_of_some hnext, lexemeKinds_of_some hr]

/-- The space in front of a piece is passed over. -/
lemma lexemeKinds_bytes_append (p : Piece) (r : Bytes) :
    lexemeKinds (p.bytes ++ r) = lexemeKinds (p.text ++ r) := by
  unfold Piece.bytes
  split
  · exact lexemeKinds_of_gapItem? (gapItem?_blank (by decide) _)
  · rfl

/-- A piece that is a token in front of a text is read back there. -/
lemma lexemes_bytes_append {r : Bytes} (h : Reads p.kind p.text r) :
    lexemes (p.bytes ++ r) = p.lexeme :: lexemes r := by
  have hnext := h.nextLexeme?_eq
  unfold Piece.bytes Piece.lexeme
  split
  · apply lexemes_of_some
    rw [List.cons_append, nextLexeme?_of_some (gapItem?_blank (by decide) _), hnext]
    rfl
  · exact lexemes_of_some hnext

/-- Pieces without a gluing spot are read back as they are. -/
theorem Laid.lexemes_join (h : Laid last lastQuoted ps) (hglue : hasGluingSpot ps = false) :
    lexemes (Piece.join ps) = ps.map Piece.lexeme := by
  induction h with
  | nil => exact lexemes_nil
  | @cons last lastQuoted p ps hp hline hspaced hrest ih =>
    rw [hasGluingSpot, Bool.or_eq_false_iff] at hglue
    have hreads := (Laid.cons hp hline hspaced hrest).reads_join hglue.1
    rw [Piece.join_cons, lexemes_bytes_append hreads, ih hglue.2, List.map_cons]

/-! ### What is read at a gluing spot -/

/-- A whole number that goes on as a fraction is not read as a whole number. -/
lemma exists_nextLexeme?_of_startsFraction {t r : Bytes} (h : Reads .intLit t [])
    (hfraction : (Base.splitMark t).1.startsFraction r = true) :
    ∃ l rest, nextLexeme? (t ++ r) = some (l, rest) ∧ (l.kind = .floatLit ∨ l.kind = .invalid) := by
  generalize hk : Kind.intLit = k at h
  cases h with
  | name =>
    unfold Kind.ofName at hk
    split at hk <;> simp at hk
  | @number _ b t _ hb _ halone _ _ =>
    subst hk
    have hkind := cutNumber_append_of_startsFraction (List.cons_ne_nil b t) halone hfraction
    rw [List.cons_append] at hkind ⊢
    exact ⟨_, _, nextLexeme?_digit hb, hkind⟩
  | _ => simp at hk

/-- A punctuation that makes a longer one with the byte behind it is read as a longer one. -/
lemma exists_nextLexeme?_of_longer {q q' : Punctuation} {b : UInt8} (r : Bytes)
    (h : q'.spelling = q.spelling ++ [b]) :
    ∃ l rest p, nextLexeme? (q.spelling ++ b :: r) = some (l, rest) ∧ l.kind = .punct p ∧
      q.spelling.length < p.spelling.length := by
  have htext : q.spelling ++ b :: r = q'.spelling ++ r := by simp [h]
  have hlength : q'.spelling.length = q.spelling.length + 1 := by simp [h]
  rw [htext]
  have hcomment : startsComment (q'.spelling ++ r) = false := by
    have hpos := List.length_pos_iff.2 q.spelling_ne_nil
    exact startsComment_of_one_lt (by omega) r
  cases hlongest : Punctuation.longest? (q'.spelling ++ r) with
  | none =>
    have hnot := List.find?_eq_none.1 hlongest q' q'.mem_byLength
    simp at hnot
  | some p =>
    have hle := (Punctuation.longest?_eq_some_iff.1 hlongest).2 q' (List.prefix_append _ _)
    obtain ⟨c, s, hs⟩ := List.exists_cons_of_ne_nil q'.spelling_ne_nil
    have hc : isPunctuationByte c = true := q'.isPunctuationByte_of_mem c (by simp [hs])
    rw [hs, List.cons_append] at hcomment hlongest ⊢
    refine ⟨_, _, p, nextLexeme?_punctuation hc hcomment, ?_, by omega⟩
    simp [cutPunctuation, hlongest]

/-- A punctuation that starts with a slash is one of two. -/
lemma Punctuation.eq_slash_or_divAssign {q : Punctuation}
    (h : q.spelling.head? = some ZigGolf.slash) : q = slash ∨ q = divAssign := by
  revert h
  cases q <;> decide

/-- A punctuation that joins with the byte behind it is read as another one, or it is the first of
two slashes. -/
lemma lexemeKinds_of_joins {q : Punctuation} {b : UInt8}
    (h : Punctuation.joins (q.spelling ++ [b]) = true) (r : Bytes) :
    (∃ k ks, lexemeKinds (q.spelling ++ b :: r) = k :: ks ∧ k ≠ .punct q ∧ k ≠ .punct .slash) ∨
      q = .slash ∧ b = slash := by
  rw [Punctuation.joins, Bool.or_eq_true, List.any_eq_true] at h
  rcases h with ⟨longer, -, hlonger⟩ | hslash
  · left
    obtain ⟨l, rest, found, hnext, hfound, hlt⟩ :=
      exists_nextLexeme?_of_longer r (beq_iff_eq.1 hlonger)
    have hpos := List.length_pos_iff.2 q.spelling_ne_nil
    have hone : Punctuation.slash.spelling.length = 1 := rfl
    refine ⟨l.kind, _, lexemeKinds_of_some hnext, ?_, ?_⟩
    · rw [hfound]
      rintro ⟨⟩
      omega
    · rw [hfound]
      rintro ⟨⟩
      omega
  · right
    have hsplit : q.spelling ++ [b] = Punctuation.slash.spelling ++ [slash] := beq_iff_eq.1 hslash
    obtain ⟨hq, hb⟩ := List.append_inj' hsplit rfl
    exact ⟨Punctuation.spelling_injective hq, List.singleton_inj.1 hb⟩

/-- What is read at a gluing spot is a token of another kind, or it starts with two slashes. -/
lemma Laid.glued_cases (h : Laid last lastQuoted (p :: ps)) (hglue : p.gluesTo ps = true) :
    (∃ k ks, lexemeKinds (p.text ++ Piece.join ps) = k :: ks ∧ k ≠ p.kind ∧ k ≠ .punct .slash) ∨
      p.kind = .punct .slash ∧ startsComment (p.text ++ Piece.join ps) = true ∧
        ∃ q qs, ps = q :: qs ∧ (q.kind = .punct .slash ∨ q.kind = .punct .divAssign) := by
  cases h with
  | cons hp _ _ hrest =>
    have hreads := hp.reads
    rcases p with ⟨spaced, kind, text⟩
    dsimp only at hreads ⊢
    cases kind with
    | punct q =>
      obtain rfl := hreads.eq_spelling
      cases ps with
      | nil => simp [Piece.gluesTo] at hglue
      | cons p' ps =>
        have hspaced := hrest.spaced_eq_false rfl
        cases hrest with
        | cons hp' _ _ _ =>
          cases hkind : p'.kind with
          | punct q' =>
            have htext : p'.text = q'.spelling := by
              have hreads' := hp'.reads
              rw [hkind] at hreads'
              exact hreads'.eq_spelling
            obtain ⟨b, t, ht⟩ := List.exists_cons_of_ne_nil q'.spelling_ne_nil
            have hjoin : Piece.join (p' :: ps) = b :: (t ++ Piece.join ps) := by
              simp [Piece.bytes, hspaced, htext, ht]
            have hjoins : Punctuation.joins (q.spelling ++ [b]) = true := by
              simpa [Piece.gluesTo, hkind, htext, ht] using hglue
            rw [hjoin]
            rcases lexemeKinds_of_joins hjoins (t ++ Piece.join ps) with hother | ⟨rfl, rfl⟩
            · exact .inl hother
            · refine .inr ⟨rfl, rfl, p', ps, rfl, ?_⟩
              rw [hkind, Kind.punct.injEq, Kind.punct.injEq]
              exact Punctuation.eq_slash_or_divAssign (by rw [ht]; rfl)
          | _ => simp [Piece.gluesTo, hkind] at hglue
    | intLit =>
      have hfraction : fractionFollows (Base.splitMark text).1 ps = true := hglue
      rw [← Laid.startsFraction_join _ hrest] at hfraction
      obtain ⟨l, rest, hnext, hkind⟩ := exists_nextLexeme?_of_startsFraction hreads hfraction
      refine .inl ⟨l.kind, _, lexemeKinds_of_some hnext, ?_, ?_⟩
      · rcases hkind with hkind | hkind <;> simp [hkind]
      · rcases hkind with hkind | hkind <;> simp [hkind]
    | _ => simp [Piece.gluesTo] at hglue

/-! ### Comments in what is written -/

/-- A text that starts with two slashes is a doc comment, or nothing of it is read up to the end of
its first line. -/
lemma lexemeKinds_of_startsComment {s : Bytes} (h : startsComment s = true) :
    (∃ k ks, lexemeKinds s = k :: ks ∧ k.isDocComment = true) ∨
      lexemeKinds s = lexemeKinds (afterFirstLine s) := by
  by_cases hdoc : startsDocComment s = true
  · left
    have hnext := nextLexeme?_docComment hdoc
    refine ⟨_, _, lexemeKinds_of_some hnext, ?_⟩
    dsimp only [Lexeme.ofCut, cutDocComment]
    split <;> rfl
  · right
    cases s with
    | nil => simp [startsComment] at h
    | cons b s =>
      have hblank : isBlank b = false := by
        have hb : b = slash := by
          by_contra hb
          rw [startsComment_eq_false hb] at h
          simp at h
        rw [hb]
        rfl
      apply lexemeKinds_of_gapItem?
      · simp only [gapItem?, hblank, h, hdoc]
        rfl

/-- What stands behind the first line of what is written is laid out as well. -/
lemma Laid.afterFirstLine_join (h : Laid last lastQuoted ps) :
    afterFirstLine (Piece.join ps) = [] ∨
      ∃ last' lastQuoted' ps', ps'.length < ps.length ∧ Laid last' lastQuoted' ps' ∧
        afterFirstLine (Piece.join ps) = lineFeed :: Piece.join ps' := by
  induction h with
  | nil => exact .inl rfl
  | @cons last lastQuoted p ps hp _ _ hrest ih =>
    have hspace : (space != lineFeed) = true := by decide
    by_cases hmem : lineFeed ∈ p.text
    · -- the piece ends the line
      right
      have hne := hp.reads.ne_nil
      have hinit := hp.reads.lineFeed_notMem_dropLast hp.wellFormed
      have htext : p.text = p.text.dropLast ++ [lineFeed] := by
        have hsplit := List.dropLast_append_getLast hne
        rw [← hsplit, List.mem_append, List.mem_singleton] at hmem
        rw [← hmem.resolve_left hinit] at hsplit
        exact hsplit.symm
      refine ⟨p.kind, p.quoted, ps, by simp, hrest, ?_⟩
      have hafter : afterFirstLine (p.text ++ Piece.join ps) = lineFeed :: Piece.join ps := by
        rw [htext, List.append_assoc]
        exact (firstLine_append hinit (by simp)).2
      rw [Piece.join_cons, ← hafter]
      unfold Piece.bytes
      split
      · exact List.dropWhile_cons_of_pos hspace
      · rfl
    · have hafter : afterFirstLine (p.bytes ++ Piece.join ps) = afterFirstLine (Piece.join ps) := by
        refine List.dropWhile_append_of_pos fun b hb => bne_iff_ne.2 ?_
        rintro rfl
        unfold Piece.bytes at hb
        split at hb
        · exact hmem ((List.mem_cons.1 hb).resolve_left (by decide))
        · exact hmem hb
      rw [Piece.join_cons, hafter]
      rcases ih with hnil | ⟨last', lastQuoted', ps', hlt, hlaid, heq⟩
      · exact .inl hnil
      · exact .inr ⟨last', lastQuoted', ps', by rw [List.length_cons]; omega, hlaid, heq⟩

/-- Where no gap stands, a token of the first kind that is read stands at the front. -/
lemma exists_reads_of_lexemeKinds {s : Bytes} {k : Kind} {ks : List Kind}
    (hgap : gapItem? s = none) (h : lexemeKinds s = k :: ks) (hk : k ≠ .invalid) :
    ∃ t r, s = t ++ r ∧ Reads k t r := by
  cases s with
  | nil => simp [lexemeKinds] at h
  | cons b s =>
    have hnext := nextLexeme?_of_none hgap
    have happend := cutToken_append b s
    rcases hcut : cutToken b s with ⟨l, r⟩
    rw [hcut] at hnext happend
    rw [lexemeKinds_of_some hnext, List.cons.injEq] at h
    obtain ⟨rfl, -⟩ := h
    obtain ⟨hnil, hreads⟩ := reads_cutToken hgap hcut hk
    rw [hnil, List.nil_append] at happend
    exact ⟨l.text, r, happend.symm, hreads⟩

/-- Behind a slash that is read as such no token is read that starts with a slash: the next token
starts right there, with another byte. -/
lemma Laid.lexemeKinds_join_ne_of_reads {t : Bytes} {k : Kind} {ks : List Kind}
    (h : Laid (.punct .slash) lastQuoted ps) (hreads : Reads (.punct .slash) t (Piece.join ps))
    (hk : k = .punct .slash ∨ k = .punct .divAssign) : lexemeKinds (Piece.join ps) ≠ k :: ks := by
  intro hkinds
  have hjoins := hreads.joins_eq_false
  rw [hreads.eq_spelling] at hjoins
  cases ps with
  | nil => simp [lexemeKinds] at hkinds
  | cons q ps =>
    have hspaced := h.spaced_eq_false rfl
    cases h with
    | cons hq _ _ _ =>
      obtain ⟨b, s, hs⟩ := List.exists_cons_of_ne_nil hq.reads.ne_nil
      have hjoin : Piece.join (q :: ps) = b :: (s ++ Piece.join ps) := by
        simp [Piece.bytes, hspaced, hs]
      rw [hjoin] at hjoins hkinds
      have hblank : isBlank b = false := hq.reads.isBlank_head? (by rw [hs]; rfl)
      have hne : b ≠ slash := by
        rintro rfl
        have hslash : Punctuation.joins [slash, slash] = false := hjoins slash rfl
        simp [Punctuation.joins_slashes] at hslash
      obtain ⟨t', r, hsplit, hreads'⟩ :=
        exists_reads_of_lexemeKinds (gapItem?_of_ne_slash hblank hne _) hkinds
          (by rcases hk with rfl | rfl <;> simp)
      have hhead : t'.head? = some slash := by
        rcases hk with rfl | rfl
        · rw [hreads'.eq_spelling]; rfl
        · rw [hreads'.eq_spelling]; rfl
      obtain ⟨t'', rfl⟩ := List.head?_eq_some_iff.1 hhead
      exact hne (List.cons.inj hsplit).1

/-- Two tokens that start with slashes are never read next to one another, the first being a single
slash. -/
lemma Laid.lexemeKinds_join_ne (h : Laid last lastQuoted ps) {k : Kind} {ks : List Kind}
    (hk : k = .punct .slash ∨ k = .punct .divAssign) :
    lexemeKinds (Piece.join ps) ≠ .punct .slash :: k :: ks := by
  induction hn : ps.length using Nat.strongRecOn generalizing last lastQuoted ps with
  | _ n ih =>
    intro hkinds
    cases ps with
    | nil => simp [lexemeKinds] at hkinds
    | cons p ps =>
      cases hglue : p.gluesTo ps with
      | false =>
        have hreads := h.reads_join hglue
        rw [Piece.join_cons, lexemeKinds, lexemes_bytes_append hreads, List.map_cons,
          List.cons.injEq] at hkinds
        obtain ⟨hslash, hnext⟩ := hkinds
        change p.kind = _ at hslash
        rw [hslash] at hreads
        cases h with
        | cons _ _ _ hrest =>
          rw [hslash] at hrest
          exact Laid.lexemeKinds_join_ne_of_reads hrest hreads hk hnext
      | true =>
        rcases h.glued_cases hglue with ⟨k', ks', hread, -, hne⟩ | ⟨hslash, hcomment, -⟩
        · rw [Piece.join_cons, lexemeKinds_bytes_append, hread, List.cons.injEq] at hkinds
          exact hne hkinds.1
        · rw [Piece.join_cons, lexemeKinds_bytes_append] at hkinds
          rcases lexemeKinds_of_startsComment hcomment with ⟨k', ks', hread, hdoc⟩ | hread
          · rw [hread, List.cons.injEq] at hkinds
            rw [hkinds.1] at hdoc
            simp [Kind.isDocComment] at hdoc
          · -- the comment ends with its line, behind which the same is read again
            have hbytes : p.bytes = p.text := by
              cases h with
              | cons _ _ hspaced _ =>
                rw [hslash] at hspaced
                simp [Piece.bytes, hspaced, mustSeparate, Kind.isWordLike]
            rw [hread, ← hbytes, ← Piece.join_cons] at hkinds
            rcases h.afterFirstLine_join with hnil | ⟨last', lastQuoted', ps', hlt, hlaid, heq⟩
            · rw [hnil] at hkinds
              simp [lexemeKinds] at hkinds
            · rw [heq, lexemeKinds_of_gapItem? (gapItem?_blank (by decide) _)] at hkinds
              exact ih ps'.length (hn ▸ hlt) hlaid rfl hkinds

/-- A gluing spot shows in the kinds of what is read back. -/
theorem Laid.hasGluingSpot_eq_false (h : Laid last lastQuoted ps)
    (hkinds : lexemeKinds (Piece.join ps) = ps.map Piece.kind) : hasGluingSpot ps = false := by
  induction h with
  | nil => rfl
  | @cons last lastQuoted p ps hp hline hspaced hrest ih =>
    have hlaid := Laid.cons hp hline hspaced hrest
    cases hglue : p.gluesTo ps with
    | false =>
      rw [Piece.join_cons, lexemeKinds, lexemes_bytes_append (hlaid.reads_join hglue),
        List.map_cons, List.map_cons, List.cons.injEq] at hkinds
      rw [hasGluingSpot, hglue, ih hkinds.2]
      rfl
    | true =>
      exfalso
      rcases hlaid.glued_cases hglue with ⟨k, ks, hread, hne, -⟩ | ⟨hp', -, q, qs, rfl, hq⟩
      · rw [Piece.join_cons, lexemeKinds_bytes_append, hread, List.map_cons,
          List.cons.injEq] at hkinds
        exact hne hkinds.1
      · rw [List.map_cons, List.map_cons, hp'] at hkinds
        exact hlaid.lexemeKinds_join_ne hq hkinds

end ZigGolf
