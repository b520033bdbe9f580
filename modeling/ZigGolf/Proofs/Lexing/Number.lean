import ZigGolf.Lexing.Number
import ZigGolf.Proofs.Bytes.Class

/-!
# Where a numeral ends

A numeral is read from the left with at most two bytes of lookahead, so what follows it matters in
three ways only: a further letter or digit runs on with it, a point and a digit turn a whole number
into a fraction, and a sign after the mark of an exponent belongs to the exponent.  Apart from
these, reading a numeral with more text behind it is reading the numeral and leaving the text alone
(`Numeral.read_append_of_stop`).
-/

namespace ZigGolf

/-- A text with which a whole number of a given base goes on as a fraction. -/
def Base.startsFraction (base : Base) : Bytes → Bool
  | point :: digit :: _ => base.hasFraction && point == byte '.' && base.isDigit digit
  | _ => false

/-- A digit of any base can stand in a name. -/
lemma Base.isNamePart_of_isDigit (base : Base) (b : UInt8) (h : base.isDigit b = true) :
    isNamePart b = true := by
  cases base with
  | binary =>
    simp only [Base.isDigit, Bool.or_eq_true, beq_iff_eq] at h
    rcases h with rfl | rfl <;> rfl
  | octal =>
    simp only [Base.isDigit, Bool.and_eq_true, decide_eq_true_eq] at h
    have hge : 0x30 ≤ b := h.1
    have hle : b ≤ 0x39 := UInt8.le_trans h.2 (by decide)
    exact ZigGolf.isNamePart_of_isDigit b (by simp [ZigGolf.isDigit, hge, hle])
  | decimal => exact ZigGolf.isNamePart_of_isDigit b h
  | hexadecimal => exact isNamePart_of_isHexDigit b h

/-- A letter that introduces an exponent can stand in a name. -/
lemma Base.isNamePart_of_isExponentMark (base : Base) (b : UInt8)
    (h : base.isExponentMark b = true) : isNamePart b = true := by
  cases base with
  | binary | octal => simp [Base.isExponentMark] at h
  | decimal | hexadecimal =>
    simp only [Base.isExponentMark, Bool.or_eq_true, beq_iff_eq] at h
    rcases h with rfl | rfl <;> rfl

namespace Numeral

/-- Digits and underscores can stand in a name. -/
lemma isNamePart_of_isRunByte (base : Base) (b : UInt8) (h : isRunByte base b = true) :
    isNamePart b = true := by
  simp only [isRunByte, Bool.or_eq_true, beq_iff_eq] at h
  rcases h with h | rfl
  · exact base.isNamePart_of_isDigit b h
  · rfl

/-- The numeral with more text behind it. -/
def follow (n : Numeral) (r : Bytes) : Numeral := { n with rest := n.rest ++ r }

/-! ### Reading with more text behind -/

section Follow

variable {r : Bytes} (hstop : r.head?.any isNamePart = false)
include hstop

/-- A run of digits is read alike with a text behind it that goes on with no byte of names. -/
lemma readDigits_follow (n : Numeral) (base : Base) :
    (n.follow r).readDigits base = (n.readDigits base).follow r := by
  have hrun : r.head?.any (isRunByte base) = false :=
    head?_any_eq_false_of_imp (isNamePart_of_isRunByte base) hstop
  simp only [readDigits, follow, takeWhile_append_of_stop hrun, dropWhile_append_of_stop hrun]

/-- The mark of a base is found alike with such a text behind it. -/
lemma splitMark_append_of_stop {s : Bytes} (hs : s ≠ []) :
    Base.splitMark (s ++ r) =
      ((Base.splitMark s).1, (Base.splitMark s).2.1, (Base.splitMark s).2.2 ++ r) := by
  rcases s with - | ⟨z, - | ⟨m, s⟩⟩
  · exact absurd rfl hs
  · cases r with
    | nil => rfl
    | cons c r =>
      -- the mark of a base is a letter, which would run on with the digit
      have hc : isNamePart c = false := by simpa using hstop
      have hx : c ≠ byte 'x' := by rintro rfl; exact absurd hc (by decide)
      have ho : c ≠ byte 'o' := by rintro rfl; exact absurd hc (by decide)
      have hb : c ≠ byte 'b' := by rintro rfl; exact absurd hc (by decide)
      simp [Base.splitMark, hx, ho, hb]
  · simp only [Base.splitMark, List.cons_append]
    repeat' split
    all_goals rfl

/-- The whole part of a numeral is read alike with such a text behind it. -/
lemma readWhole_append_of_stop {s : Bytes} (hs : s ≠ []) :
    readWhole (s ++ r) = (readWhole s).follow r := by
  simp only [readWhole, splitMark_append_of_stop hstop hs]
  exact readDigits_follow hstop
    ⟨(Base.splitMark s).1, false, true, (Base.splitMark s).2.1, (Base.splitMark s).2.2⟩ _

/-- A fraction is read from behind only if nothing of the numeral is left and the text goes on as a
fraction. -/
lemma readFraction_follow {n : Numeral}
    (hfraction : n.rest = [] → n.sound = true → n.base.startsFraction r = false) :
    (n.follow r).readFraction = n.readFraction.follow r := by
  rcases hn : n.rest with - | ⟨c, - | ⟨d, s⟩⟩
  · have hself : n.readFraction = n := by simp [readFraction, hn]
    rw [hself]
    unfold readFraction
    simp only [follow, hn, List.nil_append]
    split
    · next point digit rest =>
      have hnot : ¬ (n.sound && n.base.hasFraction && point == byte '.'
          && n.base.isDigit digit) = true := by
        have := hfraction hn
        simp only [Base.startsFraction] at this
        grind
      rw [if_neg hnot]
    · rfl
  · have hself : n.readFraction = n := by simp [readFraction, hn]
    rw [hself]
    cases r with
    | nil => simpa [follow] using hself
    | cons d r =>
      -- a digit behind a single byte would run on with a name
      have hd : n.base.isDigit d = false := by
        have hb : isNamePart d = false := by simpa using hstop
        by_contra h
        exact absurd (n.base.isNamePart_of_isDigit d (by simpa using h)) (by simp [hb])
      simp [readFraction, follow, hn, hd]
  · unfold readFraction
    simp only [follow, hn, List.cons_append]
    split
    · exact readDigits_follow hstop
        { n with isFloat := true, text := n.text ++ [c], rest := d :: s } n.base
    · simp [hn]

/-- An exponent is read from behind only if its mark is all that is left of the numeral and the text
goes on with a sign. -/
lemma readExponent_follow {n : Numeral}
    (hsign : ∀ mark, n.rest = [mark] → n.sound = true → n.base.isExponentMark mark = true →
      (splitSign r).1 = []) :
    (n.follow r).readExponent = n.readExponent.follow r := by
  rcases hn : n.rest with - | ⟨c, - | ⟨d, s⟩⟩
  · have hself : n.readExponent = n := by simp [readExponent, hn]
    rw [hself]
    cases r with
    | nil => simpa [follow] using hself
    | cons d r =>
      have hd : n.base.isExponentMark d = false := by
        have hb : isNamePart d = false := by simpa using hstop
        by_contra h
        exact absurd (n.base.isNamePart_of_isExponentMark d (by simpa using h)) (by simp [hb])
      simp [readExponent, follow, hn, hd]
  · unfold readExponent
    simp only [follow, hn, List.singleton_append]
    split
    · next hmark =>
      rw [Bool.and_eq_true] at hmark
      have hnil := hsign c hn hmark.1 hmark.2
      have hrest : (splitSign r).2 = r := by
        have := splitSign_append r
        rwa [hnil, List.nil_append] at this
      simp only [hnil, hrest]
      exact readDigits_follow hstop
        { n with isFloat := true, text := n.text ++ [c], rest := [] } .decimal
    · simp [hn]
  · unfold readExponent
    simp only [follow, hn, List.cons_append]
    have hsplit : splitSign (d :: (s ++ r)) =
        ((splitSign (d :: s)).1, (splitSign (d :: s)).2 ++ r) := by
      simp only [splitSign]
      split
      · rfl
      · rfl
    rw [hsplit]
    split
    · exact readDigits_follow hstop
        { n with
          isFloat := true
          text := n.text ++ c :: (splitSign (d :: s)).1
          rest := (splitSign (d :: s)).2 } .decimal
    · simp [hn]

/-- A numeral is read alike with such a text behind it, unless the text starts a fraction where one
could start, or a sign where one could stand. -/
lemma read_append_of_stop {s : Bytes} (hs : s ≠ [])
    (hfraction : (readWhole s).rest = [] → (readWhole s).sound = true →
      (readWhole s).base.startsFraction r = false)
    (hsign : ∀ mark, (readWhole s).readFraction.rest = [mark] →
      (readWhole s).readFraction.sound = true →
      (readWhole s).readFraction.base.isExponentMark mark = true → (splitSign r).1 = []) :
    read (s ++ r) = (read s).follow r := by
  rw [read, readWhole_append_of_stop hstop hs, readFraction_follow hstop hfraction,
    readExponent_follow hstop hsign]
  rfl

end Follow

/-! ### Whole numbers and floats -/

/-- Where a fraction stands it is read, and the numeral is a float. -/
lemma readFraction_of_startsFraction {n : Numeral} (hsound : n.sound = true)
    (hrest : n.base.startsFraction n.rest = true) :
    n.readFraction.isFloat = true ∧ ∃ u, n.readFraction.text = n.text ++ byte '.' :: u := by
  unfold Base.startsFraction at hrest
  split at hrest
  · next point digit rest hn =>
    rw [Bool.and_eq_true, Bool.and_eq_true, beq_iff_eq] at hrest
    obtain ⟨⟨hbase, rfl⟩, hdigit⟩ := hrest
    simp only [readFraction, hn, hsound, hbase, hdigit, beq_self_eq_true, Bool.and_true,
      ↓reduceIte, readDigits]
    exact ⟨trivial, (digit :: rest).takeWhile (isRunByte n.base), by simp⟩
  · exact absurd hrest (by simp)

/-- A fraction that is not there changes nothing, and one that is there makes a float. -/
lemma readFraction_eq_self_or (n : Numeral) :
    n.readFraction = n ∨ n.readFraction.isFloat = true := by
  unfold readFraction
  split
  · split
    · exact Or.inr rfl
    · exact Or.inl rfl
  · exact Or.inl rfl

/-- An exponent that is not there changes nothing, and one that is there makes a float. -/
lemma readExponent_eq_self_or (n : Numeral) :
    n.readExponent = n ∨ n.readExponent.isFloat = true := by
  unfold readExponent
  split
  · split
    · exact Or.inr rfl
    · exact Or.inl rfl
  · exact Or.inl rfl

/-- A float stays one when its exponent is read. -/
lemma isFloat_readExponent {n : Numeral} (h : n.isFloat = true) :
    n.readExponent.isFloat = true := by
  rcases n.readExponent_eq_self_or with heq | heq
  · rw [heq, h]
  · exact heq

/-- A numeral that is no float is read as soon as its whole digits are read. -/
lemma read_eq_readWhole {s : Bytes} (h : (read s).isFloat = false) : read s = readWhole s := by
  rcases (readWhole s).readFraction_eq_self_or with hf | hf
  · rcases (readWhole s).readExponent_eq_self_or with he | he
    · rw [read, hf, he]
    · rw [read, hf, he] at h
      exact absurd h (by simp)
  · rw [read, isFloat_readExponent hf] at h
    exact absurd h (by simp)

/-- A whole number with a fraction behind it is read as a float. -/
lemma isFloat_read_append {s r : Bytes} (hs : s ≠ []) (hsound : (readWhole s).sound = true)
    (hrest : (readWhole s).rest = []) (hr : (Base.splitMark s).1.startsFraction r = true) :
    (read (s ++ r)).isFloat = true ∧ ∃ u, (read (s ++ r)).text = s ++ byte '.' :: u := by
  have hstop : r.head?.any isNamePart = false := by
    unfold Base.startsFraction at hr
    split at hr
    · rw [Bool.and_eq_true, Bool.and_eq_true, beq_iff_eq] at hr
      rw [hr.1.2]
      rfl
    · exact absurd hr (by simp)
  have hwhole : readWhole (s ++ r) = (readWhole s).follow r := readWhole_append_of_stop hstop hs
  have htext : (readWhole s).text = s := by
    have := readWhole_append s
    rwa [hrest, List.append_nil] at this
  obtain ⟨hfloat, u, hu⟩ := readFraction_of_startsFraction (n := (readWhole s).follow r) hsound
    (by rw [follow, hrest, List.nil_append]; exact hr)
  obtain ⟨v, hv⟩ := exists_readExponent_eq ((readWhole s).follow r).readFraction
  refine ⟨?_, u ++ v, ?_⟩
  · rw [read, hwhole]
    exact isFloat_readExponent hfloat
  · rw [read, hwhole, hv, hu]
    simp [follow, htext]

/-! ### The extent of a numeral -/

/-- If no more than `s` is read, then the same is read without the text behind `s`, and that text
does not make a fraction of a whole number. -/
lemma read_append_of_length_le {s r : Bytes} (hs : s ≠ [])
    (hstop : r.head?.any isNamePart = false) (hle : (read (s ++ r)).text.length ≤ s.length) :
    read (s ++ r) = (read s).follow r ∧
      ((readWhole s).rest = [] → (readWhole s).sound = true →
        (readWhole s).base.startsFraction r = false) := by
  have hfraction : (readWhole s).rest = [] → (readWhole s).sound = true →
      (readWhole s).base.startsFraction r = false := by
    intro hrest hsound
    by_contra hr
    have hr : (Base.splitMark s).1.startsFraction r = true := eq_true_of_ne_false hr
    obtain ⟨-, u, hu⟩ := isFloat_read_append hs hsound hrest hr
    rw [hu, List.length_append, List.length_cons] at hle
    omega
  refine ⟨read_append_of_stop hstop hs hfraction ?_, hfraction⟩
  intro mark hrest hsound hmark
  -- the mark is the last byte of `s`, so a sign behind it would have been read as well
  have hfollow : (readWhole (s ++ r)).readFraction = (readWhole s).readFraction.follow r := by
    rw [readWhole_append_of_stop hstop hs, readFraction_follow hstop hfraction]
  have hlast : (readWhole s).readFraction.text ++ [mark] = s := by
    rw [← hrest, readFraction_append, readWhole_append]
  have hread : (read (s ++ r)).text = (readWhole s).readFraction.text ++ mark :: (splitSign r).1
      ++ (splitSign r).2.takeWhile (isRunByte .decimal) := by
    rw [read, hfollow]
    simp [readExponent, follow, hrest, hsound, hmark, readDigits]
  have hlength := congrArg List.length hlast
  rw [hread] at hle
  simp only [List.length_append, List.length_cons, List.length_nil] at hlength hle
  exact List.eq_nil_of_length_eq_zero (by omega)

/-- A sound numeral does not stop right behind the mark of an exponent. -/
lemma readFraction_rest_ne_mark {s : Bytes} (hsound : (read s).sound = true) (mark : UInt8)
    (hrest : (readWhole s).readFraction.rest = [mark])
    (hfraction : (readWhole s).readFraction.sound = true) :
    (readWhole s).readFraction.base.isExponentMark mark = false := by
  by_contra hmark
  have hmark : (readWhole s).readFraction.base.isExponentMark mark = true := by simpa using hmark
  rw [read, readExponent, hrest] at hsound
  simp [hfraction, hmark, readDigits, splitSign, wellSeparated, wellSeparatedAfter] at hsound

/-- A sound numeral is read in the same way with a text behind it that does not go on with it. -/
lemma read_append_of_sound {s r : Bytes} (hs : s ≠ []) (hstop : r.head?.any isNamePart = false)
    (hsound : (read s).sound = true)
    (hfraction : (read s).isFloat = false → (Base.splitMark s).1.startsFraction r = false) :
    read (s ++ r) = (read s).follow r := by
  apply read_append_of_stop hstop hs
  · intro hwhole _
    apply hfraction
    -- with nothing left behind the whole digits there is neither fraction nor exponent
    have hf : (readWhole s).readFraction = readWhole s := by simp [readFraction, hwhole]
    have he : (readWhole s).readExponent = readWhole s := by simp [readExponent, hwhole]
    rw [read, hf, he]
    rfl
  · intro mark hmark hsoundf hexp
    rw [readFraction_rest_ne_mark hsound mark hmark hsoundf] at hexp
    exact absurd hexp (by simp)

/-! ### The bytes of a numeral -/

/-- Every byte of what is read is plain. -/
def IsPlainText (n : Numeral) : Prop := ∀ b ∈ n.text, isPlain b = true

/-- Digits add plain bytes to a numeral. -/
lemma IsPlainText.readDigits {n : Numeral} (h : n.IsPlainText) (base : Base) :
    (n.readDigits base).IsPlainText := by
  intro b hb
  rcases List.mem_append.1 hb with hb | hb
  · exact h b hb
  · exact isPlain_of_isNamePart b
      (isNamePart_of_isRunByte base b (List.mem_takeWhile_imp hb))

/-- The whole part of a numeral consists of plain bytes. -/
lemma isPlainText_readWhole (s : Bytes) : (readWhole s).IsPlainText := by
  apply IsPlainText.readDigits
  intro b hb
  have hmark : ∀ b ∈ (Base.splitMark s).2.1, isPlain b = true := by
    unfold Base.splitMark
    split
    · repeat' split
      all_goals simp_all <;> decide
    · simp
  exact hmark b hb

/-- A fraction adds plain bytes to a numeral. -/
lemma IsPlainText.readFraction {n : Numeral} (h : n.IsPlainText) : n.readFraction.IsPlainText := by
  unfold Numeral.readFraction
  split
  · split
    · next point digit rest _ hpoint =>
      apply IsPlainText.readDigits
      intro b hb
      rcases List.mem_append.1 hb with hb | hb
      · exact h b hb
      · rw [List.mem_singleton] at hb
        simp only [Bool.and_eq_true, beq_iff_eq] at hpoint
        rw [hb, hpoint.1.2]
        decide
    · exact h
  · exact h

/-- An exponent adds plain bytes to a numeral. -/
lemma IsPlainText.readExponent {n : Numeral} (h : n.IsPlainText) : n.readExponent.IsPlainText := by
  unfold Numeral.readExponent
  split
  · next mark rest _ =>
    split
    · next hmark =>
      apply IsPlainText.readDigits
      intro b hb
      rw [Bool.and_eq_true] at hmark
      have hsign : ∀ b ∈ (splitSign rest).1, isPlain b = true := by
        unfold splitSign
        split
        · split
          · next hsign =>
            rw [Bool.or_eq_true, beq_iff_eq, beq_iff_eq] at hsign
            rcases hsign with rfl | rfl
            · simp; decide
            · simp; decide
          · simp
        · simp
      rcases List.mem_append.1 hb with hb | hb
      · exact h b hb
      · rcases List.mem_cons.1 hb with rfl | hb
        · exact isPlain_of_isNamePart b (n.base.isNamePart_of_isExponentMark b hmark.2)
        · exact hsign b hb
    · exact h
  · exact h

/-- What is read as a numeral consists of plain bytes. -/
lemma isPlainText_read (s : Bytes) : (read s).IsPlainText :=
  (isPlainText_readWhole s).readFraction.readExponent

end Numeral

/-! ### Cutting off a numeral -/

/-- What it takes for a numeral to be cut off as a valid token. -/
lemma cutNumber_eq_iff {s t r : Bytes} {k : Kind} (hk : k ≠ .invalid) :
    cutNumber s = (k, t, r) ↔
      (Numeral.read s).sound = true ∧
        k = (if (Numeral.read s).isFloat then .floatLit else .intLit) ∧
        (Numeral.read s).text = t ∧ (Numeral.read s).rest = r ∧
        (Numeral.read s).rest.head?.any isNamePart = false := by
  unfold cutNumber
  dsimp only
  split
  · next h => grind
  · next h => grind

/-- A whole number is nothing but whole digits. -/
lemma readWhole_of_cutNumber {t : Bytes} (h : cutNumber t = (.intLit, t, [])) :
    (Numeral.readWhole t).sound = true ∧ (Numeral.readWhole t).rest = [] := by
  obtain ⟨hsound, hkind, -, hrest, -⟩ := (cutNumber_eq_iff (by simp)).1 h
  have hwhole : Numeral.read t = Numeral.readWhole t := by
    apply Numeral.read_eq_readWhole
    by_contra hfloat
    simp [hfloat] at hkind
  rw [← hwhole]
  exact ⟨hsound, hrest⟩

/-- A whole number with a fraction behind it is not cut off as a whole number. -/
lemma cutNumber_append_of_startsFraction {t r : Bytes} (ht : t ≠ [])
    (h : cutNumber t = (.intLit, t, [])) (hr : (Base.splitMark t).1.startsFraction r = true) :
    (cutNumber (t ++ r)).1 = .floatLit ∨ (cutNumber (t ++ r)).1 = .invalid := by
  obtain ⟨hsound, hrest⟩ := readWhole_of_cutNumber h
  obtain ⟨hfloat, -⟩ := Numeral.isFloat_read_append ht hsound hrest hr
  simp only [cutNumber, hfloat, ↓reduceIte]
  split
  · exact .inl rfl
  · exact .inr rfl

/-- A numeral is cut off exactly if it is one by itself, no name goes on behind it, and if it is a
whole number no fraction does. -/
theorem cutNumber_append_iff {t r : Bytes} {k : Kind} (ht : t ≠ []) (hk : k ≠ .invalid) :
    cutNumber (t ++ r) = (k, t, r) ↔
      cutNumber t = (k, t, []) ∧ r.head?.any isNamePart = false ∧
        (k = .intLit → (Base.splitMark t).1.startsFraction r = false) := by
  constructor
  · intro h
    obtain ⟨hsound, hkind, htext, hrest, hstop⟩ := (cutNumber_eq_iff hk).1 h
    rw [hrest] at hstop
    obtain ⟨hread, hfraction⟩ := Numeral.read_append_of_length_le ht hstop (by rw [htext])
    rw [hread] at hsound hkind htext hrest
    have hnil : (Numeral.read t).rest = [] := by simpa [Numeral.follow] using hrest
    have halone : cutNumber t = (k, t, []) :=
      (cutNumber_eq_iff hk).2 ⟨hsound, hkind, htext, hnil, by rw [hnil]; rfl⟩
    refine ⟨halone, hstop, ?_⟩
    rintro rfl
    obtain ⟨hsound', hrest'⟩ := readWhole_of_cutNumber halone
    exact hfraction hrest' hsound'
  · rintro ⟨h, hstop, hfraction⟩
    obtain ⟨hsound, hkind, htext, hrest, -⟩ := (cutNumber_eq_iff hk).1 h
    have hread : Numeral.read (t ++ r) = (Numeral.read t).follow r := by
      apply Numeral.read_append_of_sound ht hstop hsound
      intro hfloat
      apply hfraction
      rw [hkind, hfloat]
      rfl
    rw [cutNumber_eq_iff hk, hread]
    refine ⟨hsound, hkind, htext, ?_, ?_⟩
    · simp [Numeral.follow, hrest]
    · simpa [Numeral.follow, hrest] using hstop

/-- What is cut out as a number, sound or not, consists of plain bytes. -/
lemma isPlain_of_mem_cutNumber (s : Bytes) : ∀ b ∈ (cutNumber s).2.1, isPlain b = true := by
  have hread := Numeral.isPlainText_read s
  intro b hb
  unfold cutNumber at hb
  dsimp only at hb
  split at hb
  · exact hread b hb
  · rcases List.mem_append.1 hb with hb | hb
    · exact hread b hb
    · exact isPlain_of_isNamePart b (List.mem_takeWhile_imp hb)

end ZigGolf
