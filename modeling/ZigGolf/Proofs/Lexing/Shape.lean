import ZigGolf.Proofs.Lexing.Reading

/-!
# The shape of tokens

What the grammar says about the bytes of a token: with which bytes tokens of which kinds start, that
a line feed only ends a token, and that cutting UTF-8 text into tokens never cuts through a code
point.  A valid token stays one when it is taken out of its text (`Reads.alone`), which is what lets
tokens be put together in a new way.
-/

namespace ZigGolf

variable {k : Kind} {t r : Bytes}

/-! ### Kinds -/

/-- A number that is sound is an integer or a float. -/
lemma kind_of_cutNumber {s : Bytes} (hk : k ≠ .invalid) (h : cutNumber s = (k, t, r)) :
    k = .intLit ∨ k = .floatLit := by
  obtain ⟨-, hkind, -⟩ := (cutNumber_eq_iff hk).1 h
  split at hkind
  · exact .inr hkind
  · exact .inl hkind

/-- A name is an identifier or a keyword. -/
lemma Kind.isWordLike_ofName (s : Bytes) :
    (Kind.ofName s).isWordLike = true ∧ Kind.ofName s ≠ .builtin := by
  unfold Kind.ofName
  split
  · exact ⟨rfl, by simp⟩
  · exact ⟨rfl, by simp⟩

/-- A name is an identifier if it is no keyword. -/
lemma Kind.ofName_eq_ident_iff {s : Bytes} : Kind.ofName s = .ident ↔ s ∉ keywordSpellings := by
  rw [← Keyword.ofSpelling?_eq_none_iff]
  unfold Kind.ofName
  split
  · next h => simp [h]
  · next h => simp [h]

/-- A valid token is one also where nothing stands behind it. -/
lemma Reads.alone (h : Reads k t r) : Reads k t [] := by
  cases h with
  | name ht _ => exact .name ht rfl
  | builtin ht _ => exact .builtin ht rfl
  | quotedName hbody => exact .quotedName hbody
  | string hbody => exact .string hbody
  | char hbody => exact .char hbody
  | line hline => exact .line hline
  | lastLine hline => exact .lastLine hline
  | number hb hk halone _ _ => exact .number hb hk halone rfl fun _ => rfl
  | punct _ => exact .punct (by simp)
  | docComment hline hhead _ => exact .docComment hline hhead (by simp)
  | containerDocComment hline _ => exact .containerDocComment hline (by simp)

lemma Reads.ne_nil (h : Reads k t r) : t ≠ [] := nextLexeme?_ne_nil h.nextLexeme?_eq

/-- What is read is valid. -/
lemma Reads.kind_ne_invalid (h : Reads k t r) : k ≠ .invalid := by
  cases h with
  | name => exact Kind.ofName_ne_invalid _
  | number _ hk => exact hk
  | _ => simp

/-- What is read is not the end. -/
lemma Reads.kind_ne_eof (h : Reads k t r) : k ≠ .eof := by
  cases h with
  | name =>
    intro heq
    have hword := (Kind.isWordLike_ofName t).1
    rw [heq] at hword
    exact absurd hword (by decide)
  | number _ hk halone => rcases kind_of_cutNumber hk halone with rfl | rfl <;> simp
  | _ => simp

/-- A token of the kind of a punctuation is that punctuation. -/
lemma Reads.eq_spelling {p : Punctuation} (h : Reads (.punct p) t r) : t = p.spelling := by
  generalize hk : Kind.punct p = k at h
  cases h with
  | @name t =>
    unfold Kind.ofName at hk
    split at hk <;> simp at hk
  | number _ hk' halone =>
    rcases kind_of_cutNumber hk' halone with rfl | rfl <;> simp at hk
  | punct => rw [Kind.punct.inj hk]
  | _ => simp at hk

/-- No punctuation joins with the byte behind it. -/
lemma Reads.joins_eq_false {p : Punctuation} (h : Reads (.punct p) t r) :
    ∀ b ∈ r.head?, Punctuation.joins (t ++ [b]) = false := by
  generalize hk : Kind.punct p = k at h
  cases h with
  | name =>
    unfold Kind.ofName at hk
    split at hk <;> simp at hk
  | number _ hk' halone =>
    rcases kind_of_cutNumber hk' halone with rfl | rfl <;> simp at hk
  | punct hjoins => exact hjoins
  | _ => simp at hk

/-- No whole number goes on as a fraction. -/
lemma Reads.startsFraction_eq_false (h : Reads .intLit t r) :
    (Base.splitMark t).1.startsFraction r = false := by
  generalize hk : Kind.intLit = k at h
  cases h with
  | name =>
    unfold Kind.ofName at hk
    split at hk <;> simp at hk
  | number _ _ _ _ hfraction => exact hfraction hk.symm
  | _ => simp at hk

/-! ### First bytes -/

section FirstByte

variable {b : UInt8}

/-- A plain name starts with a byte of names. -/
lemma isNamePart_of_head?_isPlainName (ht : isPlainName t = true) (hb : t.head? = some b) :
    isNamePart b = true := by
  obtain ⟨c, s, rfl, hc, -⟩ := isPlainName_iff.1 ht
  obtain rfl : c = b := by simpa using hb
  exact isNamePart_of_isNameStart c hc

/-- The bytes that tokens of each kind start with. -/
lemma Reads.head?_cases (h : Reads k t r) (hb : t.head? = some b) :
    isNamePart b = true ∧ k.isWordLike = true ∧ k ≠ .builtin ∨
      b = atSign ∧ (k = .ident ∨ k = .builtin) ∨
      (b = quote ∨ b = apostrophe ∨ b = backslash) ∧ k.isWordLike = false ∨
      b = slash ∧ k.isDocComment = true ∨
      isPunctuationByte b = true ∧ ∃ p, k = .punct p ∧ t = p.spelling := by
  cases h with
  | name ht =>
    exact .inl ⟨isNamePart_of_head?_isPlainName ht hb, Kind.isWordLike_ofName t⟩
  | number hdigit hk halone =>
    obtain rfl := Option.some.inj hb
    refine .inl ⟨isNamePart_of_isDigit _ hdigit, ?_⟩
    rcases kind_of_cutNumber hk halone with rfl | rfl
    · exact ⟨rfl, by simp⟩
    · exact ⟨rfl, by simp⟩
  | builtin => exact .inr (.inl ⟨(Option.some.inj hb).symm, .inr rfl⟩)
  | quotedName => exact .inr (.inl ⟨(Option.some.inj hb).symm, .inl rfl⟩)
  | string => exact .inr (.inr (.inl ⟨.inl (Option.some.inj hb).symm, rfl⟩))
  | char => exact .inr (.inr (.inl ⟨.inr (.inl (Option.some.inj hb).symm), rfl⟩))
  | line => exact .inr (.inr (.inl ⟨.inr (.inr (Option.some.inj hb).symm), rfl⟩))
  | lastLine => exact .inr (.inr (.inl ⟨.inr (.inr (Option.some.inj hb).symm), rfl⟩))
  | docComment => exact .inr (.inr (.inr (.inl ⟨(Option.some.inj hb).symm, rfl⟩)))
  | containerDocComment => exact .inr (.inr (.inr (.inl ⟨(Option.some.inj hb).symm, rfl⟩)))
  | @punct p r hjoins =>
    exact .inr (.inr (.inr (.inr
      ⟨p.isPunctuationByte_of_mem b (List.mem_of_head? hb), p, rfl, rfl⟩)))

/-- A token that starts as a name goes on is word-like and no builtin. -/
lemma Reads.isWordLike_of_isNamePart (h : Reads k t r) (hb : t.head? = some b)
    (hname : isNamePart b = true) : k.isWordLike = true ∧ k ≠ .builtin := by
  rcases h.head?_cases hb with ⟨-, hword⟩ | ⟨rfl, -⟩ | ⟨hb', -⟩ | ⟨rfl, -⟩ | ⟨hb', -⟩
  · exact hword
  · exact absurd hname (by decide)
  · rcases hb' with rfl | rfl | rfl <;> exact absurd hname (by decide)
  · exact absurd hname (by decide)
  · simp [isPunctuationByte, hname] at hb'

/-- A token that starts with a byte of punctuation is a punctuation or a doc comment. -/
lemma Reads.exists_punct (h : Reads k t r) (hb : t.head? = some b)
    (hpunct : isPunctuationByte b = true) (hdoc : k.isDocComment = false) :
    ∃ p, k = .punct p ∧ t = p.spelling := by
  rcases h.head?_cases hb with ⟨hname, -⟩ | ⟨rfl, -⟩ | ⟨hb', -⟩ | ⟨-, hdoc'⟩ | ⟨-, hp⟩
  · simp [isPunctuationByte, hname] at hpunct
  · exact absurd hpunct (by decide)
  · rcases hb' with rfl | rfl | rfl <;> exact absurd hpunct (by decide)
  · rw [hdoc] at hdoc'
    exact absurd hdoc' (by simp)
  · exact hp

/-- Every token starts with an ASCII byte. -/
lemma Reads.head?_lt (h : Reads k t r) (hb : t.head? = some b) : b < 0x80 := by
  rcases h.head?_cases hb with ⟨hname, -⟩ | ⟨rfl, -⟩ | ⟨hb', -⟩ | ⟨rfl, -⟩ | ⟨hpunct, -⟩
  · exact ascii_of_isPlain b (isPlain_of_isNamePart b hname)
  · decide
  · rcases hb' with rfl | rfl | rfl <;> decide
  · decide
  · rw [isPunctuationByte, Bool.and_eq_true, Bool.and_eq_true] at hpunct
    exact ascii_of_isPlain b hpunct.1.1

/-- No token starts with a blank. -/
lemma Reads.isBlank_head? (h : Reads k t r) (hb : t.head? = some b) : isBlank b = false := by
  rcases h.head?_cases hb with ⟨hname, -⟩ | ⟨rfl, -⟩ | ⟨hb', -⟩ | ⟨rfl, -⟩ | ⟨hpunct, -⟩
  · exact isBlank_eq_false_of_isPlain b (isPlain_of_isNamePart b hname)
  · rfl
  · rcases hb' with rfl | rfl | rfl <;> rfl
  · rfl
  · rw [isPunctuationByte, Bool.and_eq_true, Bool.and_eq_true] at hpunct
    exact isBlank_eq_false_of_isPlain b hpunct.1.1

end FirstByte

/-! ### Plain bytes -/

/-- A plain name consists of plain bytes. -/
lemma isPlain_of_isPlainName (ht : isPlainName t = true) : ∀ b ∈ t, isPlain b = true := by
  obtain ⟨c, s, rfl, hc, hs⟩ := isPlainName_iff.1 ht
  intro b hb
  rcases List.mem_cons.1 hb with rfl | hb
  · exact isPlain_of_isNamePart b (isNamePart_of_isNameStart b hc)
  · exact isPlain_of_isNamePart b (hs b hb)

/-- A numeral is made of plain bytes. -/
lemma isPlain_of_cutNumber {s : Bytes} (h : cutNumber s = (k, t, r)) :
    ∀ b ∈ t, isPlain b = true := by
  have hplain := isPlain_of_mem_cutNumber s
  rw [h] at hplain
  exact hplain

/-- A punctuation consists of plain bytes. -/
lemma Punctuation.isPlain_of_mem (p : Punctuation) : ∀ b ∈ p.spelling, isPlain b = true := by
  intro b hb
  have h := p.isPunctuationByte_of_mem b hb
  rw [isPunctuationByte, Bool.and_eq_true, Bool.and_eq_true] at h
  exact h.1.1

/-- Plain bytes hold no line feed. -/
lemma lineFeed_notMem_of_isPlain (h : ∀ b ∈ t, isPlain b = true) : lineFeed ∉ t := by
  intro hmem
  exact absurd (h lineFeed hmem) (by decide)

/-- A text of plain bytes ends with an ASCII byte. -/
lemma exists_getLast?_lt (hne : t ≠ []) (h : ∀ b ∈ t, isPlain b = true) :
    ∃ c ∈ t.getLast?, c < 0x80 :=
  ⟨t.getLast hne, List.getLast?_eq_getLast_of_ne_nil hne,
    ascii_of_isPlain _ (h _ (List.getLast_mem hne))⟩

/-! ### Line feeds -/

/-- The body of a character literal in UTF-8 text has no line feed. -/
lemma IsCharBody.lineFeed_notMem {body : Bytes} (h : IsCharBody body)
    (hutf8 : Utf8.WellFormed (body ++ [apostrophe])) : lineFeed ∉ body :=
  ((isCharBody_iff_isCharText hutf8).1 h).lineFeed_notMem

/-- A line feed only ends a token. -/
lemma Reads.lineFeed_notMem_dropLast (h : Reads k t r) (hutf8 : Utf8.WellFormed t) :
    lineFeed ∉ t.dropLast := by
  have hdrop : ∀ {t : Bytes}, lineFeed ∉ t → lineFeed ∉ t.dropLast :=
    fun hnot hmem => hnot (List.dropLast_subset _ hmem)
  cases h with
  | name ht => exact hdrop (lineFeed_notMem_of_isPlain (isPlain_of_isPlainName ht))
  | builtin ht =>
    refine hdrop (lineFeed_notMem_of_isPlain fun b hb => ?_)
    rcases List.mem_cons.1 hb with rfl | hb
    · rfl
    · exact isPlain_of_isPlainName ht b hb
  | @quotedName body _ hbody =>
    have hbody' : (atSign :: quote :: (body ++ [quote])).dropLast = atSign :: quote :: body :=
      @List.dropLast_concat _ (atSign :: quote :: body) _
    rw [hbody']
    simp +decide [hbody.lineFeed_notMem]
  | @string body _ hbody =>
    have hbody' : (quote :: (body ++ [quote])).dropLast = quote :: body :=
      @List.dropLast_concat _ (quote :: body) _
    rw [hbody']
    simp +decide [hbody.lineFeed_notMem]
  | @char body _ hbody =>
    have hbody' : (apostrophe :: (body ++ [apostrophe])).dropLast = apostrophe :: body :=
      @List.dropLast_concat _ (apostrophe :: body) _
    have hutf8' : Utf8.WellFormed (body ++ [apostrophe]) :=
      ((Utf8.wellFormed_append_cons_iff (a := []) (by decide)).1 hutf8).2
    rw [hbody']
    simp +decide [hbody.lineFeed_notMem hutf8']
  | @line line _ hline =>
    have hline' : (backslash :: backslash :: (line ++ [lineFeed])).dropLast =
        backslash :: backslash :: line :=
      @List.dropLast_concat _ (backslash :: backslash :: line) _
    rw [hline']
    simp +decide [hline]
  | lastLine hline => exact hdrop (by simp +decide [hline])
  | number hb hk halone => exact hdrop (lineFeed_notMem_of_isPlain (isPlain_of_cutNumber halone))
  | @punct p => exact hdrop (lineFeed_notMem_of_isPlain p.isPlain_of_mem)
  | docComment hline => exact hdrop (by simp +decide [hline])
  | containerDocComment hline => exact hdrop (by simp +decide [hline])

/-- The two shapes of a line of a multiline string. -/
lemma Reads.multilineStringLine_cases (h : Reads .multilineStringLine t r) :
    ∃ line, lineFeed ∉ line ∧
      (t = backslash :: backslash :: (line ++ [lineFeed]) ∨
        t = backslash :: backslash :: line ∧ r = []) := by
  generalize hk : Kind.multilineStringLine = k at h
  cases h with
  | @line line _ hline => exact ⟨line, hline, .inl rfl⟩
  | @lastLine line hline => exact ⟨line, hline, .inr ⟨rfl, rfl⟩⟩
  | name =>
    unfold Kind.ofName at hk
    split at hk <;> simp at hk
  | number _ hk' halone => rcases kind_of_cutNumber hk' halone with rfl | rfl <;> simp at hk
  | _ => simp at hk

/-- A line of a multiline string without its line feed is the end of the text. -/
lemma Reads.getLast?_or_eq_nil (h : Reads .multilineStringLine t r) :
    t.getLast? = some lineFeed ∨ r = [] := by
  obtain ⟨line, -, rfl | ⟨-, rfl⟩⟩ := h.multilineStringLine_cases
  · exact .inl (List.getLast?_eq_some_iff.2 ⟨backslash :: backslash :: line, rfl⟩)
  · exact .inr rfl

/-! ### Code points -/

/-- A token ends with an ASCII byte or in front of one, or the text ends with it. -/
lemma Reads.ascii_cut (h : Reads k t r) :
    (∃ c ∈ t.getLast?, c < 0x80) ∨ ∀ c ∈ r.head?, c < 0x80 := by
  have hne := h.ne_nil
  cases h with
  | name ht => exact .inl (exists_getLast?_lt hne (isPlain_of_isPlainName ht))
  | @builtin t _ ht =>
    refine .inl (exists_getLast?_lt hne fun b hb => ?_)
    rcases List.mem_cons.1 hb with rfl | hb
    · rfl
    · exact isPlain_of_isPlainName ht b hb
  | @quotedName body =>
    exact .inl ⟨quote, List.getLast?_eq_some_iff.2 ⟨atSign :: quote :: body, rfl⟩, by decide⟩
  | @string body =>
    exact .inl ⟨quote, List.getLast?_eq_some_iff.2 ⟨quote :: body, rfl⟩, by decide⟩
  | @char body =>
    exact .inl ⟨apostrophe, List.getLast?_eq_some_iff.2 ⟨apostrophe :: body, rfl⟩, by decide⟩
  | @line line =>
    exact .inl
      ⟨lineFeed, List.getLast?_eq_some_iff.2 ⟨backslash :: backslash :: line, rfl⟩, by decide⟩
  | lastLine => exact .inr (by simp)
  | number hb hk halone => exact .inl (exists_getLast?_lt hne (isPlain_of_cutNumber halone))
  | @punct p => exact .inl (exists_getLast?_lt hne p.isPlain_of_mem)
  | docComment _ _ hr => exact .inr fun c hc => by rw [hr c hc]; decide
  | containerDocComment _ hr => exact .inr fun c hc => by rw [hr c hc]; decide

/-- Cutting the gap and the token off the front of UTF-8 text leaves UTF-8 text everywhere. -/
lemma wellFormed_of_nextLexeme? {s : Bytes} {l : Lexeme} (h : nextLexeme? s = some (l, r))
    (hk : l.kind ≠ .invalid) (hs : Utf8.WellFormed s) :
    Utf8.WellFormed l.text ∧ Utf8.WellFormed r := by
  have hreads := reads_of_nextLexeme? h hk
  rw [← nextLexeme?_append h, List.append_assoc] at hs
  have hhead : ∀ c ∈ (l.text ++ r).head?, c < 0x80 := by
    intro c hc
    obtain ⟨b, t, ht⟩ := List.exists_cons_of_ne_nil hreads.ne_nil
    rw [ht] at hc
    exact hreads.head?_lt (by rw [ht]; exact hc)
  exact (hs.cut (.inr hhead)).2.cut hreads.ascii_cut

end ZigGolf
