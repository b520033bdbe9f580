import Mathlib.Data.Nat.Find
import ZigGolf.Proofs.Lexing.Start

/-!
# The grammar of numerals

`IsNumeral k t` says that the text `t` is a numeral of kind `k`: the mark of a base and a run of
digits, and for a float a fraction, an exponent or both.  In a run of digits single underscores may
stand between digits.  The texts that the lexer reads as a whole numeral are exactly these
(`isNumeral_iff_cutNumber`).

The lexer reads a numeral from the left and decides with at most two bytes of lookahead, and it does
not take back what it has read.  Still it finds the longest numeral that the text starts with: if no
letter, digit or underscore stands behind the longest one then that is the token, and else the token
is invalid (`lex_numeral`).
-/

namespace ZigGolf

variable {base : Base} {b : UInt8} {c d e f r s t : Bytes} {k : Kind}

/-! ### The grammar -/

/-- Digits of a base, with single underscores between them. -/
inductive IsDigitRun (base : Base) : Bytes → Prop
  | single {b : UInt8} : base.isDigit b = true → IsDigitRun base [b]
  | digit {b : UInt8} {d : Bytes} : base.isDigit b = true → IsDigitRun base d →
      IsDigitRun base (b :: d)
  | separated {b : UInt8} {d : Bytes} : base.isDigit b = true → IsDigitRun base d →
      IsDigitRun base (b :: underscore :: d)

/-- What numerals of a base start with, before their digits. -/
def Base.mark : Base → Bytes
  | decimal => []
  | hexadecimal => ascii "0x"
  | octal => ascii "0o"
  | binary => ascii "0b"

/-- Nothing, or a point and digits. -/
inductive IsFraction (base : Base) : Bytes → Prop
  | none : IsFraction base []
  | some {d : Bytes} : base.hasFraction = true → IsDigitRun base d →
      IsFraction base (byte '.' :: d)

/-- Nothing, or the mark of an exponent, a sign or none, and decimal digits. -/
inductive IsExponent (base : Base) : Bytes → Prop
  | none : IsExponent base []
  | some {m : UInt8} {sign d : Bytes} : base.isExponentMark m = true →
      sign ∈ [[], ascii "+", ascii "-"] → IsDigitRun .decimal d →
      IsExponent base (m :: (sign ++ d))

/-- The numerals: whole numbers, and floats, which have a fraction or an exponent. -/
inductive IsNumeral : Kind → Bytes → Prop
  | int {base : Base} {d : Bytes} : IsDigitRun base d → IsNumeral .intLit (base.mark ++ d)
  | float {base : Base} {d f e : Bytes} : IsDigitRun base d → IsFraction base f →
      IsExponent base e → f ++ e ≠ [] → IsNumeral .floatLit (base.mark ++ d ++ (f ++ e))

/-- The longest numeral that a text starts with. -/
def IsLongestNumeral (c t : Bytes) : Prop :=
  (t <+: c ∧ ∃ k, IsNumeral k t) ∧ ∀ u, u <+: c → (∃ k, IsNumeral k u) → u.length ≤ t.length

/-! ### Runs of digits -/

lemma Base.isDigit_underscore (base : Base) : base.isDigit underscore = false := by
  cases base <;> rfl

/-- A run of digits starts with a digit. -/
lemma IsDigitRun.exists_cons (h : IsDigitRun base d) :
    ∃ b rest, d = b :: rest ∧ base.isDigit b = true := by
  cases h with
  | single hb => exact ⟨_, _, rfl, hb⟩
  | digit hb => exact ⟨_, _, rfl, hb⟩
  | separated hb => exact ⟨_, _, rfl, hb⟩

/-- A run of digits is made of digits and underscores. -/
lemma IsDigitRun.isRunByte (h : IsDigitRun base d) :
    ∀ b ∈ d, Numeral.isRunByte base b = true := by
  induction h with
  | single hb => simp [Numeral.isRunByte, hb]
  | digit hb _ ih => simpa [Numeral.isRunByte, hb] using ih
  | separated hb _ ih => simpa [Numeral.isRunByte, hb] using ih

/-- Behind a digit the run goes on as if nothing stood before the digit. -/
lemma wellSeparatedAfter_digit (hb : base.isDigit b = true) (afterDigit : Bool) (s : Bytes) :
    wellSeparatedAfter afterDigit (b :: s) = wellSeparatedAfter true s := by
  have hne : b ≠ underscore := by
    rintro rfl
    rw [base.isDigit_underscore] at hb
    exact absurd hb (by decide)
  simp [wellSeparatedAfter, hne]

/-- In a run of digits the underscores stand between digits. -/
lemma IsDigitRun.wellSeparated (h : IsDigitRun base d) : wellSeparated d = true := by
  unfold ZigGolf.wellSeparated
  induction h with
  | single hb => rw [wellSeparatedAfter_digit hb, wellSeparatedAfter]
  | digit hb hd ih =>
    obtain ⟨c, rest, rfl, hc⟩ := hd.exists_cons
    rw [wellSeparatedAfter_digit hc] at ih
    rw [wellSeparatedAfter_digit hb, wellSeparatedAfter_digit hc, ih]
  | separated hb _ ih =>
    rw [wellSeparatedAfter_digit hb, wellSeparatedAfter]
    simpa using ih

/-- A well-separated run is one of the grammar. -/
lemma isDigitRun_of_wellSeparated (hs : ∀ b ∈ s, Numeral.isRunByte base b = true)
    (h : wellSeparated s = true) : IsDigitRun base s := by
  unfold wellSeparated at h
  induction hn : s.length using Nat.strongRecOn generalizing s with
  | _ n ih =>
    rcases s with - | ⟨b, s⟩
    · simp [wellSeparatedAfter] at h
    · obtain ⟨hb, hs⟩ := List.forall_mem_cons.1 hs
      have hdigit : base.isDigit b = true := by
        simp only [Numeral.isRunByte, Bool.or_eq_true, beq_iff_eq] at hb
        refine hb.resolve_right ?_
        rintro rfl
        simp [wellSeparatedAfter] at h
      rw [wellSeparatedAfter_digit hdigit] at h
      rcases s with - | ⟨c, s⟩
      · exact .single hdigit
      · by_cases hc : c = underscore
        · subst hc
          have hrest : wellSeparatedAfter false s = true := by simpa [wellSeparatedAfter] using h
          exact .separated hdigit
            (ih s.length (by simp at hn; omega) (List.forall_mem_cons.1 hs).2 hrest rfl)
        · have hrest : wellSeparatedAfter false (c :: s) = true := by
            simpa [wellSeparatedAfter, hc] using h
          exact .digit hdigit (ih (c :: s).length (by simp at hn ⊢; omega) hs hrest rfl)

/-! ### Reading the parts of a numeral -/

namespace Numeral

/-- A run of digits is read as it stands in the grammar, if no digit or underscore follows. -/
lemma readDigits_of_isDigitRun {n : Numeral} (hrest : n.rest = d ++ r) (hd : IsDigitRun base d)
    (hr : r.head?.any (isRunByte base) = false) :
    n.readDigits base = { n with text := n.text ++ d, rest := r } := by
  have htake : (d ++ r).takeWhile (isRunByte base) = d := by
    rw [takeWhile_append_of_stop hr, List.takeWhile_eq_self_iff.2 hd.isRunByte]
  have hdrop : (d ++ r).dropWhile (isRunByte base) = r := by
    rw [dropWhile_append_of_stop hr, List.dropWhile_eq_nil_iff.2 hd.isRunByte, List.nil_append]
  simp [readDigits, hrest, htake, hdrop, hd.wellSeparated]

/-- What is read as a sound run of digits is one. -/
lemma exists_isDigitRun {n : Numeral} (h : (n.readDigits base).sound = true) :
    n.sound = true ∧ ∃ d, IsDigitRun base d ∧ (n.readDigits base).text = n.text ++ d := by
  simp only [readDigits, Bool.and_eq_true] at h
  exact ⟨h.1, _, isDigitRun_of_wellSeparated (fun b hb => List.mem_takeWhile_imp hb) h.2, rfl⟩

end Numeral

/-! ### From the grammar to the lexer -/

/-- What follows the whole digits starts with a point or with the mark of an exponent. -/
lemma head?_parts (hf : IsFraction base f) (he : IsExponent base e) :
    ∀ b ∈ (f ++ e).head?, b = byte '.' ∨ base.isExponentMark b = true := by
  intro b hb
  cases hf with
  | some => exact .inl (Option.some.inj hb).symm
  | none =>
    cases he with
    | none => simp at hb
    | some hm =>
      obtain rfl := Option.some.inj hb
      exact .inr hm

/-- A period or the letter of an exponent ends a run of digits. -/
lemma isRunByte_eq_false_of_mark (h : b = byte '.' ∨ base.isExponentMark b = true) :
    Numeral.isRunByte base b = false := by
  rcases h with rfl | h
  · cases base <;> rfl
  · cases base with
    | binary | octal => simp [Base.isExponentMark] at h
    | decimal | hexadecimal =>
      simp only [Base.isExponentMark, Bool.or_eq_true, beq_iff_eq] at h
      rcases h with rfl | rfl <;> rfl

/-- Neither a fraction nor an exponent starts with a digit or an underscore. -/
lemma head?_parts_isRunByte (hf : IsFraction base f) (he : IsExponent base e) :
    (f ++ e).head?.any (Numeral.isRunByte base) = false := by
  cases hhead : (f ++ e).head? with
  | none => rfl
  | some b => exact isRunByte_eq_false_of_mark (head?_parts hf he b hhead)

/-- A decimal numeral does not go on behind its first digit as the mark of another base. -/
lemma splitMark_decimal (b : UInt8)
    (hs : ∀ c ∈ s.head?, Numeral.isRunByte .decimal c = true ∨ c = byte '.' ∨
      Base.isExponentMark .decimal c = true) :
    Base.splitMark (b :: s) = (.decimal, [], b :: s) := by
  cases s with
  | nil => rfl
  | cons c s =>
    have hc := hs c rfl
    have hx : c ≠ byte 'x' := by rintro rfl; revert hc; decide
    have ho : c ≠ byte 'o' := by rintro rfl; revert hc; decide
    have hb : c ≠ byte 'b' := by rintro rfl; revert hc; decide
    simp [Base.splitMark, hx, ho, hb]

/-- The mark of the base is split off. -/
lemma splitMark_mark (hd : IsDigitRun base d)
    (hr : ∀ b ∈ r.head?, b = byte '.' ∨ base.isExponentMark b = true) :
    Base.splitMark (base.mark ++ d ++ r) = (base, base.mark, d ++ r) := by
  cases base with
  | binary | octal | hexadecimal => rfl
  | decimal =>
    have hrun := hd.isRunByte
    obtain ⟨b, rest, rfl, -⟩ := hd.exists_cons
    refine splitMark_decimal b fun c hc => ?_
    cases rest with
    | nil => exact .inr (hr c hc)
    | cons x rest =>
      obtain rfl := Option.some.inj hc
      exact .inl (hrun x (by simp))

/-- A sign is split off from the digits of an exponent. -/
lemma splitSign_append_digits {sign : Bytes} (hsign : sign ∈ [[], ascii "+", ascii "-"])
    (hd : IsDigitRun .decimal d) : Numeral.splitSign (sign ++ d) = (sign, d) := by
  obtain ⟨b, rest, rfl, hb⟩ := hd.exists_cons
  simp only [List.mem_cons, List.not_mem_nil, or_false] at hsign
  rcases hsign with rfl | rfl | rfl
  · have hplus : b ≠ byte '+' := by rintro rfl; exact absurd hb (by decide)
    have hminus : b ≠ byte '-' := by rintro rfl; exact absurd hb (by decide)
    simp [Numeral.splitSign, hplus, hminus]
  · rfl
  · rfl

namespace Numeral

/-- Of a numeral put together from its parts the whole part is read first. -/
lemma readWhole_of_parts (hd : IsDigitRun base d) (hf : IsFraction base f)
    (he : IsExponent base e) :
    readWhole (base.mark ++ d ++ (f ++ e)) = ⟨base, false, true, base.mark ++ d, f ++ e⟩ := by
  rw [readWhole, splitMark_mark hd (head?_parts hf he)]
  exact readDigits_of_isDigitRun rfl hd (head?_parts_isRunByte hf he)

/-- Then the fraction is read, if there is one. -/
lemma readFraction_of_parts (hf : IsFraction base f) (he : IsExponent base e) (isFloat : Bool)
    (text : Bytes) :
    readFraction ⟨base, isFloat, true, text, f ++ e⟩ =
      ⟨base, isFloat || !f.isEmpty, true, text ++ f, e⟩ := by
  cases hf with
  | none =>
    -- an exponent does not start with a point
    have hnone : base.startsFraction e = false := by
      cases he with
      | none => rfl
      | @some m sign d hm =>
        have hpoint : m ≠ byte '.' := by
          rintro rfl
          exact absurd (base.isNamePart_of_isExponentMark _ hm) (by decide)
        unfold Base.startsFraction
        split
        · next heq => simp [← (List.cons.inj heq).1, hpoint]
        · rfl
    unfold Base.startsFraction at hnone
    unfold readFraction
    split
    · next point digit rest heq =>
      obtain rfl : e = point :: digit :: rest := heq
      simp_all
    · simp
  | @some d hbase hd =>
    obtain ⟨b, rest, rfl, hb⟩ := hd.exists_cons
    have hread := readDigits_of_isDigitRun (n := ⟨base, true, true, text ++ [byte '.'], _⟩) rfl hd
      (head?_parts_isRunByte .none he)
    simpa [readFraction, hbase, hb] using hread

/-- And then the exponent is read, if there is one. -/
lemma readExponent_of_parts (he : IsExponent base e) (isFloat : Bool) (text : Bytes) :
    readExponent ⟨base, isFloat, true, text, e⟩ =
      ⟨base, isFloat || !e.isEmpty, true, text ++ e, []⟩ := by
  cases he with
  | none => simp [readExponent]
  | @some m sign d hm hsign hd =>
    have hread := readDigits_of_isDigitRun (n := ⟨base, true, true, text ++ m :: sign, d⟩) (r := [])
      (by simp) hd rfl
    simpa [readExponent, hm, splitSign_append_digits hsign hd] using hread

/-- A text of the grammar is read as a whole and soundly. -/
lemma read_of_parts (hd : IsDigitRun base d) (hf : IsFraction base f) (he : IsExponent base e) :
    read (base.mark ++ d ++ (f ++ e)) =
      ⟨base, !(f ++ e).isEmpty, true, base.mark ++ d ++ (f ++ e), []⟩ := by
  rw [read, readWhole_of_parts hd hf he, readFraction_of_parts hf he, readExponent_of_parts he]
  cases f <;> simp

/-! ### From the lexer to the grammar -/

/-- The whole digits of a sound numeral. -/
lemma exists_readWhole (h : (readWhole s).sound = true) :
    ∃ base d, IsDigitRun base d ∧ (readWhole s).base = base ∧ (readWhole s).isFloat = false ∧
      (readWhole s).text = base.mark ++ d := by
  have hmark : (Base.splitMark s).2.1 = (Base.splitMark s).1.mark := by
    unfold Base.splitMark
    split
    · repeat' split
      all_goals simp_all [Base.mark] <;> rfl
    · rfl
  obtain ⟨-, d, hd, htext⟩ := exists_isDigitRun h
  refine ⟨(Base.splitMark s).1, d, hd, rfl, rfl, ?_⟩
  rw [← hmark]
  exact htext

/-- A fraction is read, or nothing. -/
lemma readFraction_cases (n : Numeral) :
    n.readFraction = n ∨ n.base.hasFraction = true ∧ ∃ rest, n.readFraction =
      readDigits { n with isFloat := true, text := n.text ++ [byte '.'], rest } n.base := by
  unfold readFraction
  split
  · next point digit rest _ =>
    split
    · next hcond =>
      simp only [Bool.and_eq_true, beq_iff_eq] at hcond
      obtain ⟨⟨⟨-, hbase⟩, rfl⟩, -⟩ := hcond
      exact .inr ⟨hbase, digit :: rest, rfl⟩
    · exact .inl rfl
  · exact .inl rfl

/-- An exponent is read, or nothing. -/
lemma readExponent_cases (n : Numeral) :
    n.readExponent = n ∨ ∃ mark sign rest, n.base.isExponentMark mark = true ∧
      sign ∈ [[], ascii "+", ascii "-"] ∧ n.readExponent =
        readDigits { n with isFloat := true, text := n.text ++ mark :: sign, rest } .decimal := by
  have hsign : ∀ s, (splitSign s).1 ∈ [[], ascii "+", ascii "-"] := by
    intro s
    unfold splitSign
    split
    · split
      · next h =>
        simp only [Bool.or_eq_true, beq_iff_eq] at h
        rcases h with rfl | rfl
        · simp; decide
        · simp; decide
      · simp
    · simp
  unfold readExponent
  split
  · next mark rest _ =>
    split
    · next hcond =>
      rw [Bool.and_eq_true] at hcond
      exact .inr ⟨mark, (splitSign rest).1, (splitSign rest).2, hcond.2, hsign rest, rfl⟩
    · exact .inl rfl
  · exact .inl rfl

/-- The fraction of a sound numeral. -/
lemma exists_isFraction {n : Numeral} (h : n.readFraction.sound = true) :
    n.sound = true ∧ n.readFraction.base = n.base ∧ ∃ f, IsFraction n.base f ∧
      n.readFraction.text = n.text ++ f ∧ n.readFraction.isFloat = (n.isFloat || !f.isEmpty) := by
  rcases n.readFraction_cases with heq | ⟨hbase, rest, heq⟩
  · rw [heq] at h ⊢
    exact ⟨h, rfl, [], .none, by simp, by simp⟩
  · rw [heq] at h ⊢
    obtain ⟨hsound, d, hd, htext⟩ := exists_isDigitRun h
    exact ⟨hsound, rfl, byte '.' :: d, .some hbase hd, by rw [htext]; simp, by simp [readDigits]⟩

/-- The exponent of a sound numeral. -/
lemma exists_isExponent {n : Numeral} (h : n.readExponent.sound = true) :
    n.sound = true ∧ ∃ e, IsExponent n.base e ∧
      n.readExponent.text = n.text ++ e ∧ n.readExponent.isFloat = (n.isFloat || !e.isEmpty) := by
  rcases n.readExponent_cases with heq | ⟨mark, sign, rest, hmark, hsign, heq⟩
  · rw [heq] at h ⊢
    exact ⟨h, [], .none, by simp, by simp⟩
  · rw [heq] at h ⊢
    obtain ⟨hsound, d, hd, htext⟩ := exists_isDigitRun h
    exact ⟨hsound, mark :: (sign ++ d), .some hmark hsign hd, by rw [htext]; simp,
      by simp [readDigits]⟩

/-- A sound numeral is made of parts of the grammar. -/
lemma exists_parts (h : (read s).sound = true) :
    ∃ base d f e, IsDigitRun base d ∧ IsFraction base f ∧ IsExponent base e ∧
      (read s).text = base.mark ++ d ++ (f ++ e) ∧ (read s).isFloat = !(f ++ e).isEmpty := by
  unfold read at h ⊢
  obtain ⟨hfraction, e, he, htext, hfloat⟩ := exists_isExponent h
  obtain ⟨hwhole, hbase, f, hf, htext', hfloat'⟩ := exists_isFraction hfraction
  obtain ⟨base, d, hd, rfl, hfloat'', htext''⟩ := exists_readWhole hwhole
  rw [hbase] at he
  refine ⟨_, d, f, e, hd, hf, he, ?_, ?_⟩
  · rw [htext, htext', htext'']
    simp
  · rw [hfloat, hfloat', hfloat'']
    cases f <;> simp

end Numeral

/-! ### The texts that are read as numerals -/

lemma IsNumeral.kind_ne_invalid (h : IsNumeral k t) : k ≠ .invalid := by
  cases h <;> simp

/-- A numeral starts with a digit. -/
lemma IsNumeral.exists_cons (h : IsNumeral k t) : ∃ b rest, t = b :: rest ∧ isDigit b = true := by
  have hstart : ∀ {base d r}, IsDigitRun base d →
      ∃ b rest, base.mark ++ d ++ r = b :: rest ∧ isDigit b = true := by
    intro base d r hd
    cases base with
    | binary | octal | hexadecimal => exact ⟨byte '0', _, rfl, rfl⟩
    | decimal =>
      obtain ⟨b, rest, rfl, hb⟩ := hd.exists_cons
      exact ⟨b, rest ++ r, rfl, hb⟩
  cases h with
  | int hd => simpa using hstart (r := []) hd
  | float hd => exact hstart hd

/-- The numerals are the texts that the lexer reads as a whole. -/
lemma isNumeral_iff_cutNumber (hk : k ≠ .invalid) :
    IsNumeral k t ↔ cutNumber t = (k, t, []) := by
  rw [cutNumber_eq_iff hk]
  constructor
  · intro h
    cases h with
    | @int base d hd =>
      have hread := Numeral.read_of_parts hd .none .none
      simp only [List.append_nil] at hread
      simp [hread]
    | float hd hf he hne =>
      rw [Numeral.read_of_parts hd hf he]
      simp_all
  · rintro ⟨hsound, hkind, htext, -, -⟩
    obtain ⟨base, d, f, e, hd, hf, he, htext', hfloat⟩ := Numeral.exists_parts hsound
    rw [htext] at htext'
    rw [hfloat] at hkind
    by_cases hne : f ++ e = []
    · rw [hne] at htext' hkind
      rw [htext', hkind, List.append_nil]
      exact .int hd
    · have hfloat' : (f ++ e).isEmpty = false := by simpa using hne
      rw [htext', hkind, hfloat']
      exact .float hd hf he hne

/-! ### The longest numeral -/

/-- A text that starts with a digit starts with a numeral, and so with a longest one. -/
lemma exists_isLongestNumeral (hb : isDigit b = true) (s : Bytes) :
    ∃ t, IsLongestNumeral (b :: s) t := by
  classical
  set P : Nat → Prop := fun n => ∃ k, IsNumeral k ((b :: s).take n) with hP
  have hone : P 1 := ⟨.intLit, @IsNumeral.int .decimal [b] (.single hb)⟩
  have hpos : 1 ≤ (b :: s).length := by simp
  refine ⟨(b :: s).take (Nat.findGreatest P (b :: s).length),
    ⟨List.take_prefix _ _, Nat.findGreatest_spec hpos hone⟩, fun u hu hnumeral => ?_⟩
  have hle : u.length ≤ Nat.findGreatest P (b :: s).length := by
    refine Nat.le_findGreatest hu.length_le ?_
    rw [hP]
    dsimp only
    rwa [← List.prefix_iff_eq_take.1 hu]
  rw [List.length_take]
  exact Nat.le_min.2 ⟨hle, hu.length_le⟩

/-- Of two numerals at the front of a text neither is longer if both are longest. -/
lemma IsLongestNumeral.unique {u : Bytes} (ht : IsLongestNumeral c t) (hu : IsLongestNumeral c u) :
    t = u := by
  have hle := hu.2 t ht.1.1 ht.1.2
  have hle' := ht.2 u hu.1.1 hu.1.2
  exact (List.prefix_of_prefix_length_le ht.1.1 hu.1.1 hle).eq_of_length (by omega)

/-- A whole number with the start of a fraction behind it is a float with one more digit. -/
lemma IsNumeral.exists_float (h : IsNumeral .intLit t)
    (hr : (Base.splitMark t).1.startsFraction r = true) :
    ∃ digit rest, r = byte '.' :: digit :: rest ∧ IsNumeral .floatLit (t ++ [byte '.', digit]) := by
  cases h with
  | @int base d hd =>
    have hmark := splitMark_mark (r := []) hd (by simp)
    rw [List.append_nil] at hmark
    rw [hmark] at hr
    unfold Base.startsFraction at hr
    split at hr
    · next point digit rest =>
      simp only [Bool.and_eq_true, beq_iff_eq] at hr
      obtain ⟨⟨hbase, rfl⟩, hdigit⟩ := hr
      have hfloat := IsNumeral.float hd (.some hbase (.single hdigit)) .none (by simp)
      exact ⟨digit, rest, rfl, by simpa using hfloat⟩
    · simp at hr

/-- The longest numeral is cut off if no name goes on behind it. -/
lemma IsLongestNumeral.cutNumber_eq (h : IsLongestNumeral (t ++ r) t) (hk : IsNumeral k t)
    (hr : r.head?.any isNamePart = false) : cutNumber (t ++ r) = (k, t, r) := by
  obtain ⟨b, rest, ht, -⟩ := hk.exists_cons
  rw [cutNumber_append_iff (by simp [ht]) hk.kind_ne_invalid]
  refine ⟨(isNumeral_iff_cutNumber hk.kind_ne_invalid).1 hk, hr, ?_⟩
  rintro rfl
  by_contra hfraction
  -- a fraction would make a longer numeral
  obtain ⟨digit, rest, rfl, hfloat⟩ := hk.exists_float (by simpa using hfraction)
  have hle := h.2 (t ++ [byte '.', digit]) ⟨rest, by simp⟩ ⟨_, hfloat⟩
  simp only [List.length_append, List.length_cons, List.length_nil] at hle
  omega

/-- A numeral that is cut off is the longest one, and no name goes on behind it. -/
lemma isLongestNumeral_of_cutNumber (hk : k ≠ .invalid) (ht : t ≠ [])
    (h : cutNumber (t ++ r) = (k, t, r)) :
    IsLongestNumeral (t ++ r) t ∧ r.head?.any isNamePart = false := by
  obtain ⟨halone, hstop, hfraction⟩ := (cutNumber_append_iff ht hk).1 h
  refine ⟨⟨⟨List.prefix_append t r, k, (isNumeral_iff_cutNumber hk).2 halone⟩, ?_⟩, hstop⟩
  rintro u hu ⟨k', hk'⟩
  by_contra hlt
  obtain ⟨v, rfl⟩ := List.prefix_of_prefix_length_le (List.prefix_append t r) hu (by omega)
  obtain ⟨w, rfl⟩ := (List.prefix_append_right_inj t).1 hu
  obtain ⟨x, v, rfl⟩ := List.exists_cons_of_ne_nil (l := v) (by rintro rfl; simp at hlt)
  -- the longer numeral would be cut off where the shorter one ends
  have hcut : cutNumber (t ++ x :: v) = (k, t, x :: v) := by
    refine (cutNumber_append_iff ht hk).2 ⟨halone, hstop, fun hint => ?_⟩
    have hnone := hfraction hint
    cases v with
    | nil => rfl
    | cons y v => exact hnone
  rw [(isNumeral_iff_cutNumber hk'.kind_ne_invalid).1 hk'] at hcut
  simp at hcut

/-! ### Result -/

/-- A token that is started at a digit, in a source in UTF-8.  The text there starts with a longest
numeral.  If no letter, digit or underscore stands behind that numeral it is the token, with its
kind; otherwise the token is invalid. -/
theorem lex_numeral (file : UInt32) {source : Bytes} (hs : Utf8.IsEncoding source) {n : Nat}
    {b : UInt8} {rest : Bytes} (hstart : tokenStart source n = b :: rest)
    (hdigit : isDigit b = true) :
    ∃ t, (lex file source)[n]? = some t ∧ (∃ longest, IsLongestNumeral (b :: rest) longest) ∧
      ∀ longest k, IsLongestNumeral (b :: rest) longest → IsNumeral k longest →
        (((b :: rest).drop longest.length).head?.any isNamePart = false →
          t.kind = k ∧ t.lexeme = longest) ∧
        (((b :: rest).drop longest.length).head?.any isNamePart = true → t.kind = .invalid) := by
  obtain ⟨t, l, r, ht, hnext, hkind, htext⟩ :=
    exists_token_of_tokenStart file (Utf8.isEncoding_iff.1 hs) hstart (by simp)
  rw [nextLexeme?_digit hdigit] at hnext
  obtain ⟨rfl, rfl⟩ := Prod.mk.inj (Option.some.inj hnext)
  refine ⟨t, ht, exists_isLongestNumeral hdigit rest, fun longest k hlongest hk => ?_⟩
  obtain ⟨after, hafter⟩ := hlongest.1.1
  have hdrop : (b :: rest).drop longest.length = after := by rw [← hafter, List.drop_left]
  rw [hdrop]
  constructor
  · intro hstop
    rw [← hafter] at hlongest hkind htext
    rw [hlongest.cutNumber_eq hk hstop] at hkind htext
    exact ⟨hkind, htext⟩
  · intro hgoes
    by_contra hvalid
    rw [hkind] at hvalid
    -- a valid token would be the longest numeral, with no name behind it
    have hcut : cutNumber ((cutNumber (b :: rest)).2.1 ++ (cutNumber (b :: rest)).2.2) =
        cutNumber (b :: rest) := by rw [cutNumber_append]
    obtain ⟨hlongest', hstop⟩ :=
      isLongestNumeral_of_cutNumber hvalid (cutNumber_ne_nil hdigit rest) hcut
    rw [cutNumber_append] at hlongest'
    obtain rfl := hlongest.unique hlongest'
    rw [List.append_cancel_left (hafter.trans (cutNumber_append _).symm), hstop] at hgoes
    exact absurd hgoes (by decide)

/-- A hexadecimal numeral with a fraction and a signed exponent, behind a gap. -/
theorem lex_numeral_of_exponent :
    ∃ t, (lex 0 (ascii "x=  0x1.8p-3"))[2]? = some t ∧ t.kind = .floatLit ∧
      t.lexeme = ascii "0x1.8p-3" := by
  have hencoding : Utf8.IsEncoding (ascii "x=  0x1.8p-3") := ⟨"x=  0x1.8p-3".toList, by decide⟩
  have hstart : tokenStart (ascii "x=  0x1.8p-3") 2 = byte '0' :: ascii "x1.8p-3" := by
    decide +kernel
  have hwhole : IsDigitRun .hexadecimal (ascii "1") := .single rfl
  have hfraction : IsFraction .hexadecimal (ascii ".8") := .some rfl (.single rfl)
  have hexponent : IsExponent .hexadecimal (ascii "p-3") :=
    @IsExponent.some _ (byte 'p') (ascii "-") (ascii "3") rfl (by simp) (.single rfl)
  have hnumeral : IsNumeral .floatLit (byte '0' :: ascii "x1.8p-3") :=
    .float hwhole hfraction hexponent (by decide)
  obtain ⟨t, ht, -, hlongest⟩ := lex_numeral 0 hencoding hstart (by decide)
  obtain ⟨hkind, htext⟩ := (hlongest _ _
    ⟨⟨List.prefix_refl _, _, hnumeral⟩, fun u hu _ => hu.length_le⟩ hnumeral).1 (by decide)
  exact ⟨t, ht, hkind, htext⟩

end ZigGolf
