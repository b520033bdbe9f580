import ZigGolf.Proofs.Lexing.Gap
import ZigGolf.Proofs.Lexing.Shape

/-!
# Invalid tokens and code points

Valid tokens end at an ASCII byte or in front of one.  So do most invalid tokens: a numeral that
runs into a name ends with a part of that name, and a literal that is not closed ends with a quote
or with its line.  Only a byte that starts no token stands for itself, and then its whole code point
is the token.  So whatever is cut off the front of UTF-8 text, what is left is UTF-8 text
(`wellFormed_of_nextLexeme?_eq_some`).
-/

namespace ZigGolf

variable {s t g r : Bytes} {b : UInt8}

/-! ### Literals that are not closed -/

/-- A line ends in front of an ASCII byte or with the text. -/
lemma head?_afterFirstLine_lt (s : Bytes) : ∀ c ∈ (afterFirstLine s).head?, c < 0x80 := by
  intro c hc
  rw [eq_lineFeed_of_mem_head?_afterFirstLine s c hc]
  decide

/-- A string ends with its closing quote, or with its line. -/
lemma ascii_cut_cutString (s : Bytes) :
    (∃ c ∈ (cutString (quote :: s)).2.1.getLast?, c < 0x80) ∨
      ∀ c ∈ (cutString (quote :: s)).2.2.head?, c < 0x80 := by
  unfold cutString
  rw [List.tail_cons]
  split
  · next n hn =>
    obtain ⟨body, rest, rfl, rfl, -, -⟩ := exists_of_closingQuote? hn
    refine .inl ⟨quote, ?_, by decide⟩
    have htake : (quote :: (body ++ quote :: rest)).take (0 + body.length + 2) =
        quote :: body ++ [quote] := by
      simp [List.take_length_add_append]
    exact List.getLast?_eq_some_iff.2 ⟨quote :: body, htake⟩
  · exact .inr (head?_afterFirstLine_lt _)

/-- What stands behind an opening quote up to where the search for a closing one stops: at a quote,
at the end of the line, or at the end of the text.  A quote escaped right at the start is passed
over. -/
inductive IsCharFault : Bytes → Bytes → Prop
  | plain {run r : Bytes} : (∀ b ∈ run, b ∉ [apostrophe, lineFeed]) →
      (∀ b ∈ r.head?, b ∈ [apostrophe, lineFeed]) →
      (run = [backslash] → r.head? ≠ some apostrophe) → IsCharFault run r
  | escaped {run r : Bytes} : (∀ b ∈ run, b ∉ [apostrophe, lineFeed]) →
      (∀ b ∈ r.head?, b ∈ [apostrophe, lineFeed]) → IsCharFault (backslash :: apostrophe :: run) r

namespace IsCharFault

/-- Behind a faulty character stands a quote or a line feed, or nothing. -/
lemma mem_of_mem_head? (h : IsCharFault t r) : ∀ b ∈ r.head?, b ∈ [apostrophe, lineFeed] := by
  cases h with
  | plain _ hr _ => exact hr
  | escaped _ hr => exact hr

/-- Of what stands behind only the first byte matters. -/
lemma congr {r' : Bytes} (h : IsCharFault t r) (hr : ∀ b ∈ r'.head?, b ∈ [apostrophe, lineFeed])
    (himp : r'.head? = some apostrophe → r.head? = some apostrophe) : IsCharFault t r' := by
  cases h with
  | plain hrun _ hback => exact .plain hrun hr fun heq => mt himp (hback heq)
  | escaped hrun _ => exact .escaped hrun hr

/-- The search for the end of a faulty character stops where the text says. -/
lemma takeWhile_append {run : Bytes} (hrun : ∀ b ∈ run, b ∉ [apostrophe, lineFeed])
    (hr : ∀ b ∈ r.head?, b ∈ [apostrophe, lineFeed]) :
    (run ++ r).takeWhile (fun b => b != apostrophe && b != lineFeed) = run := by
  have hstop : r.head?.any (fun b => b != apostrophe && b != lineFeed) = false := by
    cases r with
    | nil => rfl
    | cons b r =>
      obtain rfl | rfl : b = apostrophe ∨ b = lineFeed := by simpa using hr b rfl
      · rfl
      · rfl
  rw [takeWhile_append_of_stop hstop, List.takeWhile_eq_self_iff]
  intro b hb
  simpa using hrun b hb

/-- No quote is escaped at the start if the run is all that stands in front of the stop. -/
lemma isPrefixOf_eq_false {run : Bytes} (hrun : ∀ b ∈ run, b ∉ [apostrophe, lineFeed])
    (hr : ∀ b ∈ r.head?, b ∈ [apostrophe, lineFeed])
    (hback : run = [backslash] → r.head? ≠ some apostrophe) :
    (ascii "\\'").isPrefixOf (run ++ r) = false := by
  have hascii : ascii "\\'" = [backslash, apostrophe] := rfl
  rw [Bool.eq_false_iff, ne_eq, List.isPrefixOf_iff_prefix, hascii]
  rintro ⟨u, hu⟩
  rcases run with - | ⟨b, - | ⟨c, run⟩⟩
  · have hmem := hr backslash (by rw [← List.nil_append r, ← hu]; rfl)
    exact absurd hmem (by decide)
  · obtain ⟨rfl, rfl⟩ := List.cons.inj hu
    exact hback rfl rfl
  · obtain ⟨-, hu⟩ := List.cons.inj hu
    obtain ⟨rfl, -⟩ := List.cons.inj hu
    exact hrun apostrophe (by simp) (by simp)

/-- The quote at which the search stops belongs to the fault. -/
lemma charFaultLength_eq (h : IsCharFault t r) :
    charFaultLength (t ++ r) = t.length + if r.head? = some apostrophe then 1 else 0 := by
  have hadd : ∀ n, (if r.head? == some apostrophe then n + 1 else n) =
      n + if r.head? = some apostrophe then 1 else 0 := by
    intro n
    simp only [beq_iff_eq]
    split <;> rfl
  unfold charFaultLength
  cases h with
  | plain hrun hr hback =>
    simp only [isPrefixOf_eq_false hrun hr hback, Bool.false_eq_true, ↓reduceIte, List.drop_zero,
      Nat.zero_add, takeWhile_append hrun hr, List.drop_left]
    exact hadd _
  | @escaped run _ hrun hr =>
    have hfront : (ascii "\\'").isPrefixOf (backslash :: apostrophe :: run ++ r) = true := rfl
    have hdrop : (backslash :: apostrophe :: run ++ r).drop 2 = run ++ r := rfl
    rw [hfront, if_pos rfl]
    dsimp only
    rw [hdrop, takeWhile_append hrun hr, ← List.drop_drop, hdrop, List.drop_left, Nat.add_comm 2]
    exact hadd _

end IsCharFault

/-- Every text is searched for a closing quote up to some point. -/
lemma exists_isCharFault (s : Bytes) : ∃ t r, IsCharFault t r ∧ s = t ++ r := by
  have hsplit : ∀ s : Bytes, ∃ run r, (∀ b ∈ run, b ∉ [apostrophe, lineFeed]) ∧
      (∀ b ∈ r.head?, b ∈ [apostrophe, lineFeed]) ∧ s = run ++ r := by
    intro s
    refine ⟨s.takeWhile fun b => b ∉ [apostrophe, lineFeed],
      s.dropWhile fun b => b ∉ [apostrophe, lineFeed], ?_, ?_, ?_⟩
    · intro b hb
      simpa using List.mem_takeWhile_imp hb
    · intro b hb
      have hstop := head?_dropWhile_any (p := fun b => b ∉ [apostrophe, lineFeed]) s
      rw [Option.mem_def.1 hb, Option.any_some, decide_eq_false_iff_not, not_not] at hstop
      exact hstop
    · exact List.takeWhile_append_dropWhile.symm
  by_cases hfront : ascii "\\'" <+: s
  · obtain ⟨u, rfl⟩ := hfront
    obtain ⟨run, r, hrun, hr, rfl⟩ := hsplit u
    exact ⟨_, r, .escaped hrun hr, rfl⟩
  · obtain ⟨run, r, hrun, hr, rfl⟩ := hsplit s
    refine ⟨run, r, .plain hrun hr ?_, rfl⟩
    rintro rfl hhead
    obtain ⟨r, rfl⟩ := List.head?_eq_some_iff.1 hhead
    exact hfront ⟨r, rfl⟩

/-- What is no character literal ends with the next quote, or with its line. -/
lemma ascii_cut_charFaultLength (s : Bytes) :
    charFaultLength s ≤ s.length ∧
      ((∃ c ∈ (s.take (charFaultLength s)).getLast?, c = apostrophe) ∨
        ∀ c ∈ (s.drop (charFaultLength s)).head?, c = lineFeed) := by
  obtain ⟨t, r, h, rfl⟩ := exists_isCharFault s
  rw [h.charFaultLength_eq]
  split
  · next hquote =>
    obtain ⟨r, rfl⟩ := List.head?_eq_some_iff.1 hquote
    refine ⟨by simp, .inl ⟨apostrophe, ?_, rfl⟩⟩
    rw [List.take_length_add_append]
    simp
  · next hquote =>
    refine ⟨by simp, .inr fun c hc => ?_⟩
    rw [Nat.add_zero, List.drop_left] at hc
    obtain rfl | hfeed : c = apostrophe ∨ c = lineFeed := by
      simpa using h.mem_of_mem_head? c hc
    · exact absurd hc hquote
    · exact hfeed

/-- A character literal, valid or not, ends with a quote or with its line. -/
lemma ascii_cut_cutChar (s : Bytes) :
    (∃ c ∈ (cutChar (apostrophe :: s)).2.1.getLast?, c < 0x80) ∨
      ∀ c ∈ (cutChar (apostrophe :: s)).2.2.head?, c < 0x80 := by
  unfold cutChar
  rw [List.tail_cons]
  split
  · next n hn =>
    obtain ⟨body, rest, rfl, rfl, -⟩ := exists_of_charLength? hn
    refine .inl ⟨apostrophe, ?_, by decide⟩
    have htake : (apostrophe :: (body ++ apostrophe :: rest)).take (body.length + 1 + 1) =
        apostrophe :: body ++ [apostrophe] := by
      simp [List.take_length_add_append]
    exact List.getLast?_eq_some_iff.2 ⟨apostrophe :: body, htake⟩
  · obtain ⟨-, ⟨c, hc, rfl⟩ | hrest⟩ := ascii_cut_charFaultLength s
    · refine .inl ⟨apostrophe, ?_, by decide⟩
      obtain ⟨front, hfront⟩ := List.getLast?_eq_some_iff.1 hc
      exact List.getLast?_eq_some_iff.2 ⟨apostrophe :: front, by simp [hfront]⟩
    · refine .inr fun c hc => ?_
      rw [hrest c hc]
      decide

/-! ### Any token -/

/-- A code point that starts no token is cut off whole. -/
lemma wellFormed_cutPunctuation (hs : Utf8.WellFormed (b :: s)) :
    Utf8.WellFormed (cutPunctuation b s).2.1 ∧ Utf8.WellFormed (cutPunctuation b s).2.2 := by
  have happend := cutPunctuation_append b s
  have hne := cutPunctuation_ne_nil b s
  unfold cutPunctuation at happend hne ⊢
  split
  · next p hp =>
    rw [hp] at happend hne
    rw [← happend] at hs
    exact hs.cut (.inl (exists_getLast?_lt hne p.isPlain_of_mem))
  · obtain ⟨u, rest, hu, hsplit, hrest⟩ := hs.exists_sequence (by simp)
    obtain ⟨c, u, rfl⟩ := List.exists_cons_of_ne_nil hu.ne_nil
    obtain rfl : b = c := (List.cons.inj hsplit).1
    dsimp only
    rw [hsplit, ← hu.length_eq, List.take_left, List.drop_left]
    have halone := (Utf8.wellFormed_append_iff_of_isSequence (r := []) hu).2 Utf8.wellFormed_nil
    rw [List.append_nil] at halone
    exact ⟨halone, hrest⟩

/-- A string, valid or not, and what stands behind it. -/
lemma wellFormed_cutString (hs : Utf8.WellFormed (quote :: s)) :
    Utf8.WellFormed (cutString (quote :: s)).2.1 ∧
      Utf8.WellFormed (cutString (quote :: s)).2.2 := by
  rw [← cutString_append (quote :: s)] at hs
  exact hs.cut (ascii_cut_cutString s)

/-- What the sigil introduces, valid or not, and what stands behind it. -/
lemma wellFormed_cutAfterSigil (hs : Utf8.WellFormed s) :
    Utf8.WellFormed (cutAfterSigil s).1.text ∧ Utf8.WellFormed (cutAfterSigil s).2 := by
  have hsigil : ∀ {t : Bytes}, Utf8.WellFormed t → Utf8.WellFormed (atSign :: t) :=
    fun ht => (Utf8.wellFormed_append_cons_iff (a := []) (by decide)).2 ⟨Utf8.wellFormed_nil, ht⟩
  unfold cutAfterSigil
  split
  · next hquote =>
    obtain ⟨s, rfl⟩ := List.head?_eq_some_iff.1 hquote
    have hcut := wellFormed_cutString hs
    split
    · next heq =>
      rw [heq] at hcut
      exact hcut
    · next heq =>
      rw [heq] at hcut
      exact ⟨hsigil hcut.1, hcut.2⟩
  · split
    · next hname =>
      cases s with
      | nil => simp at hname
      | cons b s =>
        have hstart : isNameStart b = true := by simpa using hname
        rw [← List.takeWhile_append_dropWhile (p := isNamePart) (l := b :: s)] at hs
        have hcut := hs.cut (Reads.ascii_cut
          (.name (isPlainName_takeWhile hstart s) (head?_dropWhile_any _)))
        exact ⟨hsigil hcut.1, hcut.2⟩
    · exact ⟨hsigil Utf8.wellFormed_nil, hs⟩

/-- Cutting a token, valid or not, off the front of UTF-8 text leaves UTF-8 text. -/
lemma wellFormed_cutToken (hs : Utf8.WellFormed (b :: s)) :
    Utf8.WellFormed (cutToken b s).1.text ∧ Utf8.WellFormed (cutToken b s).2 := by
  unfold cutToken
  split
  · rw [← firstLine_append_afterFirstLine (b :: s)] at hs
    exact hs.cut (.inr (head?_afterFirstLine_lt _))
  split
  · next hdigit =>
    rw [← cutNumber_append (b :: s)] at hs
    exact hs.cut (.inl (exists_getLast?_lt (cutNumber_ne_nil hdigit s)
      (isPlain_of_mem_cutNumber (b :: s))))
  split
  · next hquote =>
    obtain rfl : b = quote := by simpa using hquote
    exact wellFormed_cutString hs
  split
  · next hquote =>
    obtain rfl : b = apostrophe := by simpa using hquote
    rw [← cutChar_append (apostrophe :: s)] at hs
    exact hs.cut (ascii_cut_cutChar s)
  split
  · next hback =>
    rw [Bool.and_eq_true, beq_iff_eq, beq_iff_eq] at hback
    obtain ⟨rfl, hhead⟩ := hback
    obtain ⟨s, rfl⟩ := List.head?_eq_some_iff.1 hhead
    have hcut : (cutMultilineStringLine (backslash :: backslash :: s)).2.1 ++
        (cutMultilineStringLine (backslash :: backslash :: s)).2.2 =
        backslash :: backslash :: s := List.take_append_drop _ _
    rw [← hcut] at hs
    exact hs.cut (reads_cutMultilineStringLine s).ascii_cut
  split
  · next hsigil =>
    obtain rfl : b = atSign := by simpa using hsigil
    exact wellFormed_cutAfterSigil
      ((Utf8.wellFormed_append_cons_iff (a := []) (by decide)).1 hs).2
  split
  · next hname =>
    rw [← List.takeWhile_append_dropWhile (p := isNamePart) (l := b :: s)] at hs
    exact hs.cut (Reads.ascii_cut (.name (isPlainName_takeWhile hname s) (head?_dropWhile_any _)))
  · exact wellFormed_cutPunctuation hs

/-- What stands behind a gap in UTF-8 text is UTF-8 text. -/
lemma IsGap.wellFormed (h : IsGap g r) (hs : Utf8.WellFormed (g ++ r)) : Utf8.WellFormed r := by
  induction h with
  | nil => exact hs
  | @blank b g r hb _ ih =>
    have hlt : b < 0x80 := by
      simp only [isBlank, Bool.or_eq_true, beq_iff_eq] at hb
      rcases hb with ((rfl | rfl) | rfl) | rfl <;> decide
    exact ih ((Utf8.wellFormed_append_cons_iff (a := []) hlt).1 hs).2
  | @comment line g r hline hend _ ih =>
    have hsplit : slash :: slash :: (line ++ g) ++ r = (slash :: slash :: line) ++ (g ++ r) := by
      simp
    rw [hsplit] at hs
    refine ih (hs.cut (.inr fun c hc => ?_)).2
    rw [hend c hc]
    decide

/-- Behind the gap of UTF-8 text stands UTF-8 text. -/
lemma wellFormed_splitGap (hs : Utf8.WellFormed s) : Utf8.WellFormed (splitGap s).2 := by
  rw [← splitGap_append s] at hs
  exact (isGap_splitGap s).wellFormed hs

/-- Cutting the gap and the token, valid or not, off the front of UTF-8 text leaves UTF-8 text. -/
lemma wellFormed_of_nextLexeme?_eq_some {l : Lexeme} (h : nextLexeme? s = some (l, r))
    (hs : Utf8.WellFormed s) : Utf8.WellFormed l.text ∧ Utf8.WellFormed r := by
  obtain ⟨b, rest, l', hsplit, -, hcut, -, htext⟩ := exists_cutToken_of_nextLexeme? h
  have hrest := wellFormed_cutToken (hsplit ▸ wellFormed_splitGap hs)
  rw [hcut] at hrest
  rwa [← htext]

end ZigGolf
