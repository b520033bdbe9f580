import ZigGolf.Lexing.Quoted
import ZigGolf.Proofs.Bytes.Encoding

/-!
# Where a literal between quotes ends

A literal between quotes ends with its closing quote, and nothing behind that quote is looked at.
So a valid string or character literal is an opening quote, a body and a closing quote, where the
body is one by itself (`IsStringBody`, `IsCharBody`), and any text may follow.  No body holds a line
feed.

The bodies are described by a grammar too: `IsEscape` for escapes, `IsStringText` and `IsCharText`
for what stands between the quotes.  The closing quote of a string is looked for without regard to
whether the escapes before it are sound, but where they are, no byte of an escape is taken for it.
-/

namespace ZigGolf

/-! ### Escapes -/

/-- The escapes, with their backslash: a letter, quote or backslash that stands for one byte, `x`
and two digits, or `u` and one to six digits in braces that write a scalar value. -/
inductive IsEscape : Bytes → Prop
  | simple {b : UInt8} : b ∈ ascii "nrt\\'\"" → IsEscape [backslash, b]
  | hex {high low : UInt8} : isHexDigit high = true → isHexDigit low = true →
      IsEscape [backslash, byte 'x', high, low]
  | codePoint {digits : Bytes} : (∀ d ∈ digits, isHexDigit d = true) → 1 ≤ digits.length →
      digits.length ≤ 6 → (hexValue digits).isValidChar →
      IsEscape (backslash :: byte 'u' :: 0x7B :: (digits ++ [0x7D]))

/-- An escape starts with a backslash. -/
lemma IsEscape.exists_cons {e : Bytes} (h : IsEscape e) : ∃ rest, e = backslash :: rest := by
  cases h <;> exact ⟨_, rfl⟩

/-- The numbers that an escape may give are those of characters. -/
lemma isScalarValue_iff {n : Nat} : isScalarValue n = true ↔ n.isValidChar := by
  simp only [isScalarValue, Nat.isValidChar, Bool.and_eq_true, Bool.not_eq_true',
    Bool.and_eq_false_iff, decide_eq_true_eq, decide_eq_false_iff_not]
  omega

/-- A braced code point is made of digits between braces. -/
lemma exists_digits_of_bracedLength? {s : Bytes} {n : Nat} (h : bracedLength? s = some n) :
    ∃ digits rest, s = 0x7B :: (digits ++ 0x7D :: rest) ∧ n = digits.length + 2 ∧
      (∀ d ∈ digits, isHexDigit d = true) ∧ 1 ≤ digits.length ∧ digits.length ≤ 6 ∧
      (hexValue digits).isValidChar := by
  cases s with
  | nil => simp [bracedLength?] at h
  | cons opening s =>
    simp only [bracedLength?] at h
    split at h
    · next hcond =>
      simp only [Bool.and_eq_true, beq_iff_eq, decide_eq_true_eq] at hcond
      obtain ⟨⟨⟨⟨rfl, hpos⟩, hsix⟩, hclose⟩, hscalar⟩ := hcond
      set digits := s.takeWhile isHexDigit with hdigits
      -- behind the digits stands the closing brace
      have hdrop : s.drop digits.length = s.dropWhile isHexDigit := by
        conv => lhs; rw [← List.takeWhile_append_dropWhile (p := isHexDigit) (l := s)]
        rw [← hdigits, List.drop_left]
      obtain ⟨rest, hrest⟩ := List.head?_eq_some_iff.1 hclose
      have hs : s = digits ++ 0x7D :: rest := by
        rw [← hrest, hdrop, hdigits, List.takeWhile_append_dropWhile]
      exact ⟨digits, rest, by simp [hs], (Option.some.inj h).symm,
        fun d hd => List.mem_takeWhile_imp hd, hpos, hsix, isScalarValue_iff.1 hscalar⟩
    · simp at h

/-- Digits between braces are read without looking behind them. -/
lemma bracedLength?_digits {digits : Bytes} (hdigits : ∀ d ∈ digits, isHexDigit d = true)
    (hpos : 1 ≤ digits.length) (hsix : digits.length ≤ 6) (hvalue : (hexValue digits).isValidChar)
    (r : Bytes) :
    bracedLength? (0x7B :: (digits ++ 0x7D :: r)) = some (digits.length + 2) := by
  -- the closing brace is no digit
  have htake : (digits ++ 0x7D :: r).takeWhile isHexDigit = digits := by
    rw [List.takeWhile_append_of_pos hdigits]
    simp +decide
  simp only [bracedLength?, htake, List.drop_left]
  rw [if_pos (by simp [hpos, hsix, isScalarValue_iff.2 hvalue])]

/-- An escape is read without looking behind it. -/
lemma IsEscape.escapeLength?_append {e : Bytes} (h : IsEscape (backslash :: e)) (r : Bytes) :
    escapeLength? (e ++ r) = some e.length := by
  cases h with
  | simple hb => simp [escapeLength?, hb]
  | hex hhigh hlow => simp +decide [escapeLength?, hhigh, hlow]
  | codePoint hdigits hpos hsix hvalue =>
    simp +decide [escapeLength?, bracedLength?_digits hdigits hpos hsix hvalue]

/-- What is read as an escape is one. -/
lemma exists_isEscape_of_escapeLength? {s : Bytes} {n : Nat} (h : escapeLength? s = some n) :
    ∃ e rest, IsEscape (backslash :: e) ∧ s = e ++ rest ∧ n = e.length := by
  cases s with
  | nil => simp [escapeLength?] at h
  | cons b s =>
    simp only [escapeLength?] at h
    split at h
    · next hb => exact ⟨[b], s, .simple (by simpa using hb), rfl, (Option.some.inj h).symm⟩
    split at h
    · next hx =>
      obtain rfl : b = byte 'x' := by simpa using hx
      split at h
      · next high low rest =>
        split at h
        · next hhex =>
          rw [Bool.and_eq_true] at hhex
          exact ⟨[byte 'x', high, low], rest, .hex hhex.1 hhex.2, rfl, (Option.some.inj h).symm⟩
        · simp at h
      · simp at h
    split at h
    · next hu =>
      obtain rfl : b = byte 'u' := by simpa using hu
      obtain ⟨m, hm, rfl⟩ := Option.map_eq_some_iff.1 h
      obtain ⟨digits, rest, rfl, rfl, hdigits, hpos, hsix, hvalue⟩ :=
        exists_digits_of_bracedLength? hm
      exact ⟨byte 'u' :: 0x7B :: (digits ++ [0x7D]), rest, .codePoint hdigits hpos hsix hvalue,
        by simp, by simp⟩
    · simp at h

/-- No digit has a meaning in strings. -/
lemma notMem_of_isHexDigit {d : UInt8} (hd : isHexDigit d = true) :
    d ∉ [quote, backslash, lineFeed] := by
  have hnone : ∀ b ∈ [quote, backslash, lineFeed], isHexDigit b = false := by decide +kernel
  intro hmem
  rw [hnone d hmem] at hd
  exact absurd hd (by decide)

/-- An escape stands on one line. -/
lemma IsEscape.lineFeed_notMem {e : Bytes} (h : IsEscape e) : lineFeed ∉ e := by
  have hdigit : ∀ d, isHexDigit d = true → lineFeed ≠ d := by
    rintro d hd rfl
    exact notMem_of_isHexDigit hd (by simp)
  cases h with
  | @simple b hb =>
    have hne : lineFeed ≠ b := by rintro rfl; exact absurd hb (by decide)
    simp +decide [hne]
  | hex hhigh hlow => simp +decide [hdigit _ hhigh, hdigit _ hlow]
  | @codePoint digits hdigits =>
    have hfeed : lineFeed ∉ digits := fun hmem => hdigit _ (hdigits _ hmem) rfl
    simp +decide [hfeed]

/-! ### Strings -/

/-- The texts that are read as what stands between the quotes of a valid string. -/
def IsStringBody (body : Bytes) : Prop :=
  closingQuote? 0 (body ++ [quote]) = some body.length ∧ wellEscaped body = true

/-- The search for the closing quote ends at a quote. -/
@[simp] lemma closingQuote?_quote (offset : Nat) (r : Bytes) :
    closingQuote? offset (quote :: r) = some offset := by
  rw [closingQuote?.eq_def]
  simp +decide

/-- The search for the closing quote fails at a line feed. -/
@[simp] lemma closingQuote?_lineFeed (offset : Nat) (r : Bytes) :
    closingQuote? offset (lineFeed :: r) = none := by
  rw [closingQuote?.eq_def]
  simp

/-- A quote or backslash after a backslash is skipped with it. -/
lemma closingQuote?_escape (offset : Nat) {c : UInt8} (hc : (c == quote || c == backslash) = true)
    (r : Bytes) : closingQuote? offset (backslash :: c :: r) = closingQuote? (offset + 2) r := by
  conv => lhs; rw [closingQuote?.eq_def]
  simp +decide [hc]

/-- Any other byte after a backslash is looked at by itself. -/
lemma closingQuote?_backslash (offset : Nat) {c : UInt8}
    (hc : ¬ (c == quote || c == backslash) = true) (r : Bytes) :
    closingQuote? offset (backslash :: c :: r) = closingQuote? (offset + 1) (c :: r) := by
  conv => lhs; rw [closingQuote?.eq_def]
  simp +decide [hc]

/-- A byte without a meaning in strings is passed over. -/
lemma closingQuote?_cons (offset : Nat) {b : UInt8} (hfeed : ¬ (b == lineFeed) = true)
    (hquote : ¬ (b == quote) = true) (hback : ¬ (b == backslash) = true) (r : Bytes) :
    closingQuote? offset (b :: r) = closingQuote? (offset + 1) r := by
  conv => lhs; rw [closingQuote?.eq_def]
  simp [hfeed, hquote, hback]

/-- The closing quote of a string is found without looking behind it, and on the same line. -/
lemma exists_of_closingQuote? {offset n : Nat} {s : Bytes} (h : closingQuote? offset s = some n) :
    ∃ body rest, s = body ++ quote :: rest ∧ n = offset + body.length ∧ lineFeed ∉ body ∧
      ∀ r, closingQuote? offset (body ++ quote :: r) = some n := by
  fun_induction closingQuote? offset s with
  | case1 => simp at h
  | case2 => simp at h
  | case3 offset b rest hfeed hquote =>
    obtain rfl : b = quote := by simpa using hquote
    obtain rfl : offset = n := by simpa using h
    exact ⟨[], rest, rfl, rfl, by simp, fun r => closingQuote?_quote offset r⟩
  | case4 => simp at h
  | case5 offset b hfeed hquote hback c rest hc ih =>
    obtain rfl : b = backslash := by simpa using hback
    have hc' : lineFeed ≠ c := by rintro rfl; exact absurd hc (by decide)
    obtain ⟨body, rest', rfl, rfl, hmem, hr⟩ := ih h
    refine ⟨backslash :: c :: body, rest', rfl, by simp; omega, ?_, ?_⟩
    · simp +decide [hc', hmem]
    · intro r
      rw [List.cons_append, List.cons_append, closingQuote?_escape offset hc]
      exact hr r
  | case6 offset b hfeed hquote hback c rest hc ih =>
    obtain rfl : b = backslash := by simpa using hback
    obtain ⟨body, rest', hs, rfl, hmem, hr⟩ := ih h
    refine ⟨backslash :: body, rest', by simp [hs], by simp; omega, ?_, ?_⟩
    · simp +decide [hmem]
    · intro r
      -- the body goes on with the byte after the backslash, since that byte is no quote
      cases body with
      | nil =>
        rw [List.nil_append, List.cons.injEq] at hs
        exact absurd hc (by simp [hs.1])
      | cons d body =>
        rw [List.cons_append, List.cons.injEq] at hs
        rw [List.cons_append, List.cons_append, ← hs.1, closingQuote?_backslash offset hc, hs.1]
        exact hr r
  | case7 offset b rest hfeed hquote hback ih =>
    have hb : lineFeed ≠ b := by rintro rfl; exact hfeed (by decide)
    obtain ⟨body, rest', rfl, rfl, hmem, hr⟩ := ih h
    refine ⟨b :: body, rest', rfl, by simp; omega, ?_, ?_⟩
    · simp [hb, hmem]
    · intro r
      rw [List.cons_append, closingQuote?_cons offset hfeed hquote hback]
      exact hr r

/-- The body of a string stands on one line. -/
lemma IsStringBody.lineFeed_notMem {body : Bytes} (h : IsStringBody body) : lineFeed ∉ body := by
  obtain ⟨body', rest, hs, hn, hmem, -⟩ := exists_of_closingQuote? h.1
  have hlength : body'.length = body.length := by omega
  rwa [(List.append_inj hs.symm hlength).1] at hmem

/-- The texts that may stand between the quotes of a string: escapes, and bytes other than the
quote, the backslash and the line feed. -/
inductive IsStringText : Bytes → Prop
  | nil : IsStringText []
  | byte {b : UInt8} {s : Bytes} : b ∉ [quote, backslash, lineFeed] → IsStringText s →
      IsStringText (b :: s)
  | escape {e s : Bytes} : IsEscape e → IsStringText s → IsStringText (e ++ s)

/-- The search for the closing quote passes over any other byte. -/
lemma closingQuote?_of_notMem (offset : Nat) {b : UInt8} (hb : b ∉ [quote, backslash, lineFeed])
    (r : Bytes) : closingQuote? offset (b :: r) = closingQuote? (offset + 1) r := by
  simp only [List.mem_cons, List.not_mem_nil, or_false, not_or] at hb
  exact closingQuote?_cons offset (by simp [hb]) (by simp [hb]) (by simp [hb]) r

/-- Bytes without a meaning in strings are passed over. -/
lemma closingQuote?_append (offset : Nat) {t : Bytes}
    (ht : ∀ b ∈ t, b ∉ [quote, backslash, lineFeed]) (r : Bytes) :
    closingQuote? offset (t ++ r) = closingQuote? (offset + t.length) r := by
  induction t generalizing offset with
  | nil => rfl
  | cons b t ih =>
    obtain ⟨hb, ht⟩ := List.forall_mem_cons.1 ht
    rw [List.cons_append, closingQuote?_of_notMem offset hb, ih _ ht, List.length_cons,
      Nat.add_right_comm, Nat.add_assoc]

/-- A backslash is passed over with such bytes behind it. -/
lemma closingQuote?_backslash_append (offset : Nat) {t : Bytes} (hne : t ≠ [])
    (ht : ∀ b ∈ t, b ∉ [quote, backslash, lineFeed]) (r : Bytes) :
    closingQuote? offset (backslash :: t ++ r) =
      closingQuote? (offset + (backslash :: t).length) r := by
  obtain ⟨b, t, rfl⟩ := List.exists_cons_of_ne_nil hne
  have hb := ht b (by simp)
  simp only [List.mem_cons, List.not_mem_nil, or_false, not_or] at hb
  rw [List.cons_append, List.cons_append, closingQuote?_backslash offset (by simp [hb]),
    ← List.cons_append, closingQuote?_append _ ht, List.length_cons (a := backslash),
    Nat.add_right_comm, Nat.add_assoc]

/-- An escape is passed over as a whole: if it holds a quote or a second backslash, then right
behind its backslash. -/
lemma IsEscape.closingQuote?_append {e : Bytes} (h : IsEscape e) (offset : Nat) (r : Bytes) :
    closingQuote? offset (e ++ r) = closingQuote? (offset + e.length) r := by
  cases h with
  | @simple b hb =>
    by_cases hc : (b == quote || b == backslash) = true
    · exact closingQuote?_escape offset hc r
    · refine closingQuote?_backslash_append offset (by simp) ?_ r
      have hfeed : b ≠ lineFeed := by rintro rfl; exact absurd hb (by decide)
      simp_all
  | hex hhigh hlow =>
    refine closingQuote?_backslash_append offset (by simp) ?_ r
    simp only [List.forall_mem_cons]
    exact ⟨by decide, notMem_of_isHexDigit hhigh, notMem_of_isHexDigit hlow, by simp⟩
  | codePoint hdigits =>
    refine closingQuote?_backslash_append offset (by simp) ?_ r
    simp only [List.forall_mem_cons, List.forall_mem_append]
    exact ⟨by decide, by decide, fun d hd => notMem_of_isHexDigit (hdigits d hd), by decide,
      by simp⟩

/-- Behind an escape the rest is checked. -/
lemma IsEscape.wellEscaped_append {e : Bytes} (h : IsEscape e) (s : Bytes) :
    wellEscaped (e ++ s) = wellEscaped s := by
  obtain ⟨e, rfl⟩ := h.exists_cons
  rw [List.cons_append, wellEscaped, h.escapeLength?_append]
  simp

/-- Behind a byte that is no backslash the rest is checked. -/
lemma wellEscaped_cons {b : UInt8} (hb : b ≠ backslash) (s : Bytes) :
    wellEscaped (b :: s) = wellEscaped s := by
  rw [wellEscaped]
  simp [hb]

/-- What may stand in a string is passed over. -/
lemma IsStringText.closingQuote?_append {s : Bytes} (h : IsStringText s) (offset : Nat)
    (r : Bytes) : closingQuote? offset (s ++ r) = closingQuote? (offset + s.length) r := by
  induction h generalizing offset with
  | nil => rfl
  | byte hb _ ih =>
    rw [List.cons_append, closingQuote?_of_notMem offset hb, ih, List.length_cons,
      Nat.add_right_comm, Nat.add_assoc]
  | escape he _ ih =>
    rw [List.append_assoc, he.closingQuote?_append, ih, List.length_append, Nat.add_assoc]

/-- The text of a string passes the check of its escapes. -/
lemma IsStringText.wellEscaped {s : Bytes} (h : IsStringText s) : wellEscaped s = true := by
  induction h with
  | nil => rw [ZigGolf.wellEscaped]
  | byte hb _ ih => rw [wellEscaped_cons (by simp_all), ih]
  | escape he _ ih => rw [he.wellEscaped_append, ih]

/-- A text with sound escapes in which the closing quote is found at the end may stand in a
string. -/
lemma isStringText_of_closingQuote? {s : Bytes} {offset : Nat} (hescaped : wellEscaped s = true)
    (hclose : closingQuote? offset (s ++ [quote]) = some (offset + s.length)) :
    IsStringText s := by
  -- the scan for the quote and the check of the escapes go over the text in the same pieces
  fun_induction wellEscaped s generalizing offset with
  | case1 => exact .nil
  | case2 b rest hback n hn ih =>
    obtain rfl : b = backslash := by simpa using hback
    obtain ⟨e, s, he, rfl, rfl⟩ := exists_isEscape_of_escapeLength? hn
    rw [List.drop_left] at ih hescaped
    rw [← List.cons_append, List.append_assoc, he.closingQuote?_append, List.length_append,
      ← Nat.add_assoc] at hclose
    exact .escape he (ih hescaped hclose)
  | case3 => simp at hescaped
  | case4 b rest hback ih =>
    have hb : b ∉ [quote, backslash, lineFeed] := by
      simp only [List.mem_cons, List.not_mem_nil, or_false, not_or]
      refine ⟨?_, by simpa using hback, ?_⟩
      · rintro rfl
        rw [List.cons_append, closingQuote?_quote] at hclose
        simp at hclose
      · rintro rfl
        simp at hclose
    rw [List.cons_append, closingQuote?_of_notMem offset hb, List.length_cons, ← Nat.add_assoc,
      Nat.add_right_comm] at hclose
    exact .byte hb (ih hescaped hclose)

/-- The bodies of strings are those of the grammar. -/
lemma isStringBody_iff_isStringText {body : Bytes} : IsStringBody body ↔ IsStringText body := by
  constructor
  · rintro ⟨hclose, hescaped⟩
    exact isStringText_of_closingQuote? hescaped (by rwa [Nat.zero_add])
  · intro h
    refine ⟨?_, h.wellEscaped⟩
    rw [h.closingQuote?_append, closingQuote?_quote, Nat.zero_add]

/-- A valid string is cut off exactly if a body and a closing quote follow the opening one; what
stands behind does not matter. -/
theorem cutString_eq_iff {s t r : Bytes} {k : Kind} (hk : k ≠ .invalid) :
    cutString (quote :: s) = (k, t, r) ↔
      k = .stringLit ∧ ∃ body, IsStringBody body ∧ s = body ++ quote :: r ∧
        t = quote :: body ++ [quote] := by
  unfold cutString
  rw [List.tail_cons]
  constructor
  · intro h
    split at h
    · next n hn =>
      obtain ⟨body, rest, rfl, rfl, -, hr⟩ := exists_of_closingQuote? hn
      simp only [Nat.zero_add, List.take_left, List.take_succ_cons, List.drop_succ_cons,
        Prod.mk.injEq] at h
      obtain ⟨hkind, rfl, rfl⟩ := h
      have hescaped : wellEscaped body = true := by
        by_contra hnot
        rw [if_neg hnot] at hkind
        exact hk hkind.symm
      rw [if_pos hescaped] at hkind
      refine ⟨hkind.symm, body, ⟨?_, hescaped⟩, ?_, ?_⟩
      · simpa using hr []
      · simp
      · simp [List.take_length_add_append]
    · simp only [Prod.mk.injEq] at h
      exact absurd h.1.symm hk
  · rintro ⟨rfl, body, ⟨hclose, hescaped⟩, rfl, rfl⟩
    obtain ⟨body', rest, hs, hn, -, hr⟩ := exists_of_closingQuote? hclose
    obtain rfl : body' = body :=
      (List.append_inj hs.symm (by omega)).1
    rw [hr r]
    simp [hescaped, List.take_length_add_append]

/-! ### Characters -/

/-- The texts that may stand between the quotes of a character literal: an escape, or a character
other than the quote, the backslash and the line feed. -/
inductive IsCharText : Bytes → Prop
  | escape {e : Bytes} : IsEscape e → IsCharText e
  | codePoint {c : Char} : c ∉ "'\\\n".toList → IsCharText (String.utf8EncodeChar c)

/-- Whether a character may stand by itself is seen from the first byte of its encoding. -/
lemma mem_toList_iff_of_utf8EncodeChar {c : Char} {a : UInt8} {t : Bytes}
    (h : String.utf8EncodeChar c = a :: t) :
    c ∈ "'\\\n".toList ↔ a ∈ [apostrophe, backslash, lineFeed] := by
  constructor
  · have hfirst : ("'\\\n".toList.all fun c => (String.utf8EncodeChar c).head?.any
        [apostrophe, backslash, lineFeed].contains) = true := by decide
    intro hc
    simpa [h] using List.all_eq_true.1 hfirst c hc
  · have hascii : ∀ a ∈ [apostrophe, backslash, lineFeed],
        a < 0x80 ∧ Char.ofNat a.toNat ∈ "'\\\n".toList := by decide +kernel
    intro ha
    rw [Utf8.eq_ofNat_of_utf8EncodeChar h (hascii a ha).1]
    exact (hascii a ha).2

/-- In UTF-8 text, what is read as the body of a character literal may stand in one. -/
lemma exists_isCharText_of_charBodyLength? {s : Bytes} {n : Nat} (hs : Utf8.WellFormed s)
    (h : charBodyLength? s = some n) :
    ∃ body rest, IsCharText body ∧ s = body ++ rest ∧ n = body.length := by
  cases s with
  | nil => simp [charBodyLength?] at h
  | cons b s =>
    simp only [charBodyLength?] at h
    split at h
    · next hback =>
      obtain ⟨m, hm, rfl⟩ := Option.map_eq_some_iff.1 h
      obtain ⟨e, rest, he, rfl, rfl⟩ := exists_isEscape_of_escapeLength? hm
      rw [beq_iff_eq.1 hback]
      exact ⟨backslash :: e, rest, .escape he, rfl, rfl⟩
    · next hback =>
      split at h
      · simp at h
      · next hplain =>
        obtain ⟨u, rest, hu, hsplit, -⟩ := hs.exists_sequence (by simp)
        obtain ⟨c, hc⟩ := (Utf8.isSequence_iff_inRange.1 hu).exists_char
        obtain ⟨a, u, rfl⟩ := List.exists_cons_of_ne_nil hu.ne_nil
        obtain rfl : b = a := (List.cons.inj hsplit).1
        refine ⟨b :: u, rest, ?_, hsplit, by rw [hu.length_eq]; exact (Option.some.inj h).symm⟩
        rw [hc]
        refine .codePoint ?_
        rw [mem_toList_iff_of_utf8EncodeChar hc.symm]
        simp_all

/-- A character that may stand by itself is a sequence with a first byte that may. -/
lemma exists_cons_of_notMem_toList {c : Char} (hc : c ∉ "'\\\n".toList) :
    ∃ a u, String.utf8EncodeChar c = a :: u ∧ Utf8.IsSequence (a :: u) ∧
      a ∉ [apostrophe, backslash, lineFeed] := by
  have hu := Utf8.isSequence_iff_inRange.2 (Utf8.inRange_utf8EncodeChar c)
  obtain ⟨a, u, hcons⟩ := List.exists_cons_of_ne_nil hu.ne_nil
  rw [hcons] at hu
  rw [mem_toList_iff_of_utf8EncodeChar hcons] at hc
  exact ⟨a, u, hcons, hu, hc⟩

/-- What may stand in a character literal is read as its body, whatever follows. -/
lemma IsCharText.charBodyLength?_append {body : Bytes} (h : IsCharText body) (r : Bytes) :
    charBodyLength? (body ++ r) = some body.length := by
  cases h with
  | escape he =>
    obtain ⟨e, rfl⟩ := he.exists_cons
    simp [charBodyLength?, he.escapeLength?_append]
  | codePoint hc =>
    obtain ⟨a, u, hcons, hu, ha⟩ := exists_cons_of_notMem_toList hc
    simp_all [charBodyLength?, hu.length_eq]

/-- The text of a character stands on one line. -/
lemma IsCharText.lineFeed_notMem {body : Bytes} (h : IsCharText body) : lineFeed ∉ body := by
  cases h with
  | escape he => exact he.lineFeed_notMem
  | codePoint hc =>
    obtain ⟨a, u, hcons, hu, ha⟩ := exists_cons_of_notMem_toList hc
    rw [hcons, List.mem_cons, not_or]
    constructor
    · rintro rfl
      simp at ha
    · -- the bytes after the first one are no ASCII bytes
      intro hmem
      exact absurd (hu.le_of_mem_tail _ hmem) (by decide)

/-- The texts that are read as what stands between the quotes of a valid character literal. -/
def IsCharBody (body : Bytes) : Prop :=
  charBodyLength? (body ++ [apostrophe]) = some body.length

/-- In UTF-8 text the bodies of character literals are those of the grammar. -/
lemma isCharBody_iff_isCharText {body : Bytes} (hutf8 : Utf8.WellFormed (body ++ [apostrophe])) :
    IsCharBody body ↔ IsCharText body := by
  refine ⟨fun h => ?_, fun h => h.charBodyLength?_append [apostrophe]⟩
  obtain ⟨body', rest, hbody, hsplit, hlength⟩ := exists_isCharText_of_charBodyLength? hutf8 h
  rwa [(List.append_inj hsplit hlength).1]

/-- The body of a character literal is read without looking behind the closing quote. -/
lemma exists_of_charLength? {s : Bytes} {n : Nat} (h : charLength? s = some n) :
    ∃ body rest, s = body ++ apostrophe :: rest ∧ n = body.length + 1 ∧
      ∀ r, charBodyLength? (body ++ apostrophe :: r) = some body.length := by
  unfold charLength? at h
  split at h
  · next m hm =>
    split at h
    · next hclose =>
      obtain ⟨rest, hrest⟩ := List.head?_eq_some_iff.1 (beq_iff_eq.1 hclose)
      have hs : s = s.take m ++ apostrophe :: rest := by rw [← hrest, List.take_append_drop]
      have hlength : (s.take m).length = m := by
        rw [List.length_take]
        have := congrArg List.length hrest
        simp only [List.length_drop, List.length_cons] at this
        omega
      refine ⟨s.take m, rest, hs, by rw [hlength]; simpa using h.symm, ?_⟩
      intro r
      rw [hlength]
      cases s with
      | nil => simp [charBodyLength?] at hm
      | cons b s =>
        simp only [charBodyLength?] at hm
        split at hm
        · next hback =>
          obtain ⟨k, hk, rfl⟩ := Option.map_eq_some_iff.1 hm
          obtain ⟨e, rest', he, rfl, rfl⟩ := exists_isEscape_of_escapeLength? hk
          simp only [List.take_succ_cons, List.take_left, List.cons_append, charBodyLength?, hback,
            he.escapeLength?_append, ↓reduceIte, Option.map_some]
        · next hback =>
          split at hm
          · simp at hm
          · next hplain =>
            obtain rfl : Utf8.sequenceLength b = m := by simpa using hm
            obtain ⟨k, hk⟩ := Nat.exists_eq_succ_of_ne_zero (Utf8.sequenceLength_pos b).ne'
            simp only [hk, List.take_succ_cons, List.cons_append, charBodyLength?, hback, hplain,
              Bool.false_eq_true, ↓reduceIte]
    · simp at h
  · simp at h

/-- A valid character literal is cut off exactly if a body and a closing quote follow the opening
one; what stands behind does not matter. -/
theorem cutChar_eq_iff {s t r : Bytes} {k : Kind} (hk : k ≠ .invalid) :
    cutChar (apostrophe :: s) = (k, t, r) ↔
      k = .charLit ∧ ∃ body, IsCharBody body ∧ s = body ++ apostrophe :: r ∧
        t = apostrophe :: body ++ [apostrophe] := by
  unfold cutChar
  rw [List.tail_cons]
  constructor
  · intro h
    split at h
    · next n hn =>
      obtain ⟨body, rest, rfl, rfl, hr⟩ := exists_of_charLength? hn
      simp only [Prod.mk.injEq] at h
      obtain ⟨rfl, rfl, rfl⟩ := h
      refine ⟨rfl, body, hr [], ?_, ?_⟩
      · simp
      · simp [List.take_length_add_append]
    · simp only [Prod.mk.injEq] at h
      exact absurd h.1.symm hk
  · rintro ⟨rfl, body, hbody, rfl, rfl⟩
    have hlength : charLength? (body ++ [apostrophe]) = some (body.length + 1) := by
      rw [charLength?, hbody]
      simp
    obtain ⟨body', rest, hs, hn, hr⟩ := exists_of_charLength? hlength
    obtain rfl : body' = body := (List.append_inj hs.symm (by omega)).1
    have hlength : charLength? (body' ++ apostrophe :: r) = some (body'.length + 1) := by
      rw [charLength?, hr r]
      simp
    rw [hlength]
    simp [List.take_length_add_append]

end ZigGolf
