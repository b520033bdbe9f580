import ZigGolf.Proofs.Minification.LineEnd

/-!
# No space too many

Every space that is written is needed (`lex_eraseIdx_ne`).  A space stands between two words only.
Without it the first of them is not read, whatever the two read as together.  Before that a token
could be read in another way only if it saw the space, but a token sees at most two bytes of what
stands behind it, and of these the second only if the first is a period.
-/

namespace ZigGolf

variable {k : Kind} {t r s s' : Bytes} {last : Kind} {lastQuoted : Bool} {p q : Piece}
  {ps qs : List Piece}

/-! ### Two words -/

/-- The tokens that other words run into: names, numbers, builtins and keywords, but no quoted
identifiers. -/
def isWord (k : Kind) (t : Bytes) : Bool := k.isWordLike && !(k == .ident && isQuotedSpelling t)

/-- The words are what is made of bytes of names, quoted identifiers apart. -/
lemma isWord_iff : isWord k t = true ↔
    k.isWordLike = true ∧ (k == .ident && isQuotedSpelling t) = false := by
  rw [isWord, Bool.and_eq_true, Bool.not_eq_true']

/-- A space is written between words only. -/
lemma Laid.isWord_of_spaced (h : Laid last lastQuoted (ps ++ q :: p :: qs))
    (hspaced : p.spaced = true) :
    isWord q.kind q.text = true ∧ isWord p.kind p.text = true ∧ p.kind ≠ .builtin := by
  induction ps generalizing last lastQuoted with
  | nil =>
    cases h with
    | cons _ _ _ hrest =>
      cases hrest with
      | cons _ _ hspaced' _ =>
        rw [hspaced] at hspaced'
        simp only [mustSeparate, Bool.true_eq, Bool.and_eq_true, Bool.not_eq_true', bne_iff_ne]
          at hspaced'
        obtain ⟨⟨hp, hq⟩, ⟨hbuiltin, hqword⟩, hpword⟩ := hspaced'
        exact ⟨isWord_iff.2 ⟨hqword, hq⟩, isWord_iff.2 ⟨hpword, hp⟩, hbuiltin⟩
  | cons p' ps ih =>
    cases h with
    | cons _ _ _ hrest => exact ih hrest

/-- The first piece has no space before it. -/
lemma Laid.exists_concat_of_spaced (h : Laid .invalid false (ps ++ p :: qs))
    (hspaced : p.spaced = true) : ∃ ps' q, ps = ps' ++ [q] := by
  rcases List.eq_nil_or_concat ps with rfl | ⟨ps', q, rfl⟩
  · have hnot := h.spaced_eq_false rfl
    rw [hspaced] at hnot
    exact absurd hnot (by decide)
  · exact ⟨ps', q, List.concat_eq_append⟩

/-- A word that is no builtin starts as names or numbers do. -/
lemma Reads.head?_any_isNamePart_of_isWord (h : Reads k t r) (hword : isWord k t = true)
    (hbuiltin : k ≠ .builtin) : t.head?.any isNamePart = true := by
  obtain ⟨hlike, hquoted⟩ := isWord_iff.1 hword
  cases h with
  | name ht =>
    obtain ⟨b, s, rfl, hb, -⟩ := isPlainName_iff.1 ht
    exact isNamePart_of_isNameStart b hb
  | builtin => exact absurd rfl hbuiltin
  | quotedName => simp [isQuotedSpelling] at hquoted
  | @number _ b _ _ hb => exact isNamePart_of_isDigit b hb
  | _ => simp [Kind.isWordLike] at hlike

/-- Behind a word no name goes on. -/
lemma Reads.head?_any_isNamePart_behind_word (h : Reads k t r) (hword : isWord k t = true) :
    r.head?.any isNamePart = false := by
  obtain ⟨hlike, hquoted⟩ := isWord_iff.1 hword
  cases h with
  | name _ hr => exact hr
  | builtin _ hr => exact hr
  | quotedName => simp [isQuotedSpelling] at hquoted
  | number _ _ _ hr => exact hr
  | _ => simp [Kind.isWordLike] at hlike

/-- No word starts with a byte of punctuation. -/
lemma Reads.isPunctuationByte_of_isWord {b : UInt8} (h : Reads k t r) (hword : isWord k t = true)
    (hb : t.head? = some b) : isPunctuationByte b = false := by
  obtain ⟨hlike, -⟩ := isWord_iff.1 hword
  rcases h.head?_cases hb with ⟨hname, -⟩ | ⟨rfl, -⟩ | ⟨-, hnot⟩ | ⟨-, hdoc⟩ | ⟨-, p, rfl, -⟩
  · simp [isPunctuationByte, hname]
  · rfl
  · simp [hnot] at hlike
  · cases k <;> simp [Kind.isWordLike, Kind.isDocComment] at hlike hdoc
  · simp [Kind.isWordLike] at hlike

/-! ### What a token sees -/

/-- Two texts look alike from their front if they start alike, for two bytes or up to a byte that is
no period. -/
lemma alikeBehind_append (hs : s ≠ []) (hperiod : s ≠ [byte '.']) (r r' : Bytes) :
    AlikeBehind (s ++ r) (s ++ r') := by
  obtain ⟨b, s, rfl⟩ := List.exists_cons_of_ne_nil hs
  refine ⟨by simp, fun _ _ _ => rfl, fun base => ?_⟩
  cases s with
  | nil =>
    have hb : b ≠ byte '.' := by
      rintro rfl
      exact hperiod rfl
    rw [List.singleton_append, List.singleton_append, startsFraction_cons_of_ne base hb,
      startsFraction_cons_of_ne base hb]
  | cons c s => rfl

/-- A text that ends with a word is more than a period. -/
lemma Piece.append_bytes_ne_period (hq : q.IsToken) (hword : isWord q.kind q.text = true)
    (s : Bytes) : s ++ q.bytes ≠ [byte '.'] := by
  intro heq
  obtain ⟨b, t, ht⟩ := List.exists_cons_of_ne_nil hq.reads.ne_nil
  have hmem : b ∈ s ++ q.bytes := by
    unfold Piece.bytes
    split <;> simp [ht]
  rw [heq, List.mem_singleton] at hmem
  subst hmem
  have hbyte := hq.reads.isPunctuationByte_of_isWord hword (by rw [ht]; rfl)
  exact absurd hbyte (by decide)

/-! ### Words of what is written -/

/-- The space in front of a piece is passed over. -/
lemma words_bytes_append (p : Piece) (r : Bytes) : words (p.bytes ++ r) = words (p.text ++ r) := by
  unfold Piece.bytes
  split
  · exact words_blank (by decide) _
  · rfl

/-- A piece is read as one word if what follows leaves it alone. -/
lemma words_bytes_append_of_reads (hp : p.IsToken) (h : Reads p.kind p.text r) :
    words (p.bytes ++ r) = (p.kind, p.text) :: words r := by
  rw [words_bytes_append, h.words_append, hp.isDocComment_eq_false]
  rfl

/-- The words of pieces without a gluing spot are the pieces. -/
lemma Laid.words_join (h : Laid last lastQuoted ps) (hglue : hasGluingSpot ps = false) :
    words (Piece.join ps) = ps.map fun p => (p.kind, p.text) := by
  have hkept : ∀ l ∈ ps.map Piece.lexeme, (!l.kind.isDocComment) = true := by
    intro l hl
    obtain ⟨p, hp, rfl⟩ := List.mem_map.1 hl
    exact congrArg not (h.isToken p hp).isDocComment_eq_false
  rw [words, h.lexemes_join hglue, List.filter_eq_self.2 hkept, List.map_map]
  rfl

/-- The pieces in front of a word are read back whatever stands behind that word. -/
lemma Laid.words_join_append (h : Laid last lastQuoted (ps ++ q :: qs))
    (hglue : hasGluingSpot (ps ++ q :: qs) = false) (hword : isWord q.kind q.text = true)
    (r : Bytes) :
    words (Piece.join ps ++ (q.bytes ++ r)) =
      (ps.map fun p => (p.kind, p.text)) ++ words (q.bytes ++ r) := by
  induction ps generalizing last lastQuoted with
  | nil => rfl
  | cons p ps ih =>
    rw [List.cons_append] at h hglue
    have hread := h.reads_join (Bool.or_eq_false_iff.1 hglue).1
    cases h with
    | cons hp _ _ hrest =>
      have hq : q.IsToken := hrest.isToken q (by simp)
      have hfront : Piece.join ps ++ q.bytes ≠ [] := by
        have hne := hq.reads.ne_nil
        unfold Piece.bytes
        split <;> simp [hne]
      -- the token sees nothing behind the word
      have halike : AlikeBehind (Piece.join (ps ++ q :: qs)) (Piece.join ps ++ (q.bytes ++ r)) := by
        rw [Piece.join_append, Piece.join_cons, ← List.append_assoc, ← List.append_assoc]
        exact alikeBehind_append hfront (Piece.append_bytes_ne_period hq hword _) _ _
      rw [Piece.join_cons, List.append_assoc, words_bytes_append_of_reads hp
        (hread.of_alikeBehind hp.isDocComment_eq_false halike),
        ih hrest (Bool.or_eq_false_iff.1 hglue).2, List.map_cons, List.cons_append]

/-- A word is not read where a name goes on behind it. -/
lemma words_bytes_append_ne (hq : q.IsToken) (hword : isWord q.kind q.text = true)
    (hr : r.head?.any isNamePart = true) (rest : List (Kind × Bytes)) :
    words (q.bytes ++ r) ≠ (q.kind, q.text) :: rest := by
  obtain ⟨b, t, ht⟩ := List.exists_cons_of_ne_nil hq.reads.ne_nil
  have hslash : b ≠ slash := by
    rintro rfl
    have hbyte := hq.reads.isPunctuationByte_of_isWord hword (by rw [ht]; rfl)
    exact absurd hbyte (by decide)
  have hgap : gapItem? (b :: (t ++ r)) = none :=
    gapItem?_of_ne_slash (hq.reads.isBlank_head? (by rw [ht]; rfl)) hslash _
  have happend := cutToken_append b (t ++ r)
  rcases hcut : cutToken b (t ++ r) with ⟨l, r'⟩
  rw [hcut] at happend
  intro hwords
  rw [words_bytes_append, ht, List.cons_append,
    words_of_some (hcut ▸ nextLexeme?_of_none hgap)] at hwords
  have hk : l.kind ≠ .invalid := by
    intro hk
    rw [hk] at hwords
    exact hq.reads.kind_ne_invalid (Prod.mk.inj (List.cons.inj hwords).1).1.symm
  obtain ⟨hnil, hreads⟩ := reads_cutToken hgap hcut hk
  rw [hnil, List.nil_append] at happend
  cases hdoc : l.kind.isDocComment with
  | true =>
    have hcomment := hreads.startsComment_of_isDocComment hdoc
    rw [happend, startsComment_eq_false hslash] at hcomment
    exact absurd hcomment (by decide)
  | false =>
    rw [hdoc] at hwords
    obtain ⟨hkind, htext⟩ := Prod.mk.inj (List.cons.inj hwords).1
    dsimp only at hkind htext happend
    obtain rfl : r' = r := by
      rw [htext, List.cons_append] at happend
      exact List.append_cancel_left (List.cons.inj happend).2
    rw [hreads.head?_any_isNamePart_behind_word (by rwa [hkind, htext, ← ht])] at hr
    exact absurd hr (by decide)

/-- Without the space between two words the first of them is not read. -/
lemma Laid.words_ne_of_spaced (h : Laid last lastQuoted (ps ++ q :: p :: qs))
    (hglue : hasGluingSpot (ps ++ q :: p :: qs) = false) (hspaced : p.spaced = true) :
    words (Piece.join ps ++ (q.bytes ++ (p.text ++ Piece.join qs))) ≠
      words (Piece.join (ps ++ q :: p :: qs)) := by
  obtain ⟨hqword, hpword, hbuiltin⟩ := h.isWord_of_spaced hspaced
  have hreads := (h.isToken p (by simp)).reads
  have hnext : (p.text ++ Piece.join qs).head?.any isNamePart = true := by
    rw [List.head?_append_of_ne_nil _ hreads.ne_nil]
    exact hreads.head?_any_isNamePart_of_isWord hpword hbuiltin
  rw [h.words_join_append hglue hqword, h.words_join hglue, List.map_append, List.map_cons]
  intro hwords
  exact words_bytes_append_ne (h.isToken q (by simp)) hqword hnext _
    (List.append_cancel_left hwords)

/-! ### Result -/

/-- The words of a text are told by the kinds and texts of its tokens. -/
lemma words_eq_of_map_lex {file : UInt32} (hs : Utf8.WellFormed s) (hs' : Utf8.WellFormed s')
    (h : (lex file s).map (fun t => (t.kind, t.lexeme)) =
      (lex file s').map fun t => (t.kind, t.lexeme)) : words s = words s' := by
  rw [lex_of_wellFormed hs, lex_of_wellFormed hs', List.map_append, List.map_append,
    map_tokensOfText, map_tokensOfText] at h
  rw [words_eq_filter, words_eq_filter, List.append_cancel_right h]

/-- If what was written has no gluing spot, then the tokens of the output are others, in kind or
text, as soon as one of the spaces is taken away that were written between tokens. -/
theorem lex_eraseIdx_ne {ptr64 : Bool} {file : UInt32} {source output : Bytes} {E : List Piece}
    (h : (minifyRun ptr64 file source).pieces = some E)
    (houtput : (minify ptr64 file source).1 = some output) (hglue : hasGluingSpot E = false)
    {i : Nat} {p : Piece} (hp : E[i]? = some p) (hspaced : p.spaced = true) (file' : UInt32) :
    output[(Piece.join (E.take i)).length]? = some space ∧
      (lex file' (output.eraseIdx (Piece.join (E.take i)).length)).map
          (fun t => (t.kind, t.lexeme)) ≠
        (lex file' output).map fun t => (t.kind, t.lexeme) := by
  obtain ⟨hlaid, -⟩ := laid_of_minifyRun h
  obtain rfl := join_eq_output h houtput
  have hsplit := eq_take_append_cons_drop hp
  generalize E.take i = before, E.drop (i + 1) = after at hsplit
  subst hsplit
  have hbytes : Piece.join (before ++ p :: after) =
      Piece.join before ++ space :: (p.text ++ Piece.join after) := by
    rw [Piece.join_append, Piece.join_cons, Piece.bytes, if_pos hspaced, List.cons_append]
  have hutf8 := hlaid.wellFormed_join
  rw [hbytes] at hutf8 ⊢
  refine ⟨by simp, fun hlex => ?_⟩
  rw [List.eraseIdx_append_of_length_le (Nat.le_refl _), Nat.sub_self,
    List.eraseIdx_cons_zero] at hlex
  have hparts := (Utf8.wellFormed_append_cons_iff (by decide)).1 hutf8
  have hwords := words_eq_of_map_lex (hparts.1.append hparts.2) hutf8 hlex
  obtain ⟨before, q, rfl⟩ := hlaid.exists_concat_of_spaced hspaced
  rw [← hbytes, List.append_assoc before, List.singleton_append, Piece.join_append before] at hwords
  rw [List.append_assoc, List.singleton_append] at hlaid hglue
  refine hlaid.words_ne_of_spaced hglue hspaced ?_
  simpa using hwords

/-- Without the second space in `const a=1 and b;` the number runs into the keyword. -/
theorem lex_eraseIdx_ne_of_number :
    (ascii "const a=1 and b;")[9]? = some space ∧
      (lex 0 (ascii "const a=1and b;")).map (fun t => (t.kind, t.lexeme)) ≠
        (lex 0 (ascii "const a=1 and b;")).map fun t => (t.kind, t.lexeme) := by
  have hpieces : (minifyRun false 0 (ascii "const x = 1 and y;")).pieces =
      some [⟨false, .keyword ⟨ascii "const", by decide⟩, ascii "const"⟩, ⟨true, .ident, ascii "a"⟩,
        ⟨false, .punct .assign, ascii "="⟩, ⟨false, .intLit, ascii "1"⟩,
        ⟨true, .keyword ⟨ascii "and", by decide⟩, ascii "and"⟩, ⟨true, .ident, ascii "b"⟩,
        ⟨false, .punct .semicolon, ascii ";"⟩] := by decide +kernel
  have houtput : (minify false 0 (ascii "const x = 1 and y;")).1 =
      some (ascii "const a=1 and b;") := by
    rw [minify, hpieces]
    decide
  exact lex_eraseIdx_ne hpieces houtput (by decide) (i := 4) rfl rfl 0

end ZigGolf
