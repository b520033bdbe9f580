import Mathlib.Data.List.TakeWhile
import Mathlib.Tactic.Common
import ZigGolf.Bytes.Basic

/-!
# Byte classes

There are 256 bytes, so what holds of all of them can be decided.  The facts about byte classes that
the theory of lexing rests on are decided here once.  `isPlain` collects the bytes that tokens
without quotes are made of: tokens of names, digits and punctuation hold no other byte, and no other
byte starts or ends in the middle of one.
-/

namespace ZigGolf

/-- A property of all bytes is decided byte by byte. -/
instance decidableForallByte (p : UInt8 → Prop) [DecidablePred p] : Decidable (∀ b, p b) :=
  decidable_of_iff (∀ n : Fin 256, p (UInt8.ofFin n)) ⟨fun h b => h b.toFin, fun h _ => h _⟩

/-- The ASCII bytes that are no blank and start no literal between quotes and no line of a multiline
string. -/
def isPlain (b : UInt8) : Bool :=
  b < 0x80 && !isBlank b && b != quote && b != apostrophe && b != backslash

/-- The plain bytes that belong to no name and introduce none. -/
def isPunctuationByte (b : UInt8) : Bool := isPlain b && !isNamePart b && b != atSign

/-- How the classes of names and of digits lie to each other and to the plain bytes. -/
lemma nameClasses_spec : ∀ b, (isNamePart b = true → isPlain b = true) ∧
    (isHexDigit b = true → isNamePart b = true) ∧ (isDigit b = true → isNameStart b = false) := by
  decide +kernel

/-! ### Names -/

/-- Bytes of names are plain. -/
lemma isPlain_of_isNamePart (b : UInt8) (h : isNamePart b = true) : isPlain b = true :=
  (nameClasses_spec b).1 h

/-- What can start a name can also stand further on in it. -/
lemma isNamePart_of_isNameStart (b : UInt8) (h : isNameStart b = true) : isNamePart b = true := by
  simp [isNamePart, h]

/-- Digits can stand in names. -/
lemma isNamePart_of_isDigit (b : UInt8) (h : isDigit b = true) : isNamePart b = true := by
  simp [isNamePart, h]

/-- Hexadecimal digits can stand in names. -/
lemma isNamePart_of_isHexDigit (b : UInt8) (h : isHexDigit b = true) : isNamePart b = true :=
  (nameClasses_spec b).2.1 h

/-- The parts of names are the bytes that start names and the digits, and no byte is both. -/
lemma isNameStart_eq_false_of_isDigit (b : UInt8) (h : isDigit b = true) : isNameStart b = false :=
  (nameClasses_spec b).2.2 h

/-- No name starts with a digit. -/
lemma isDigit_eq_false_of_isNameStart (b : UInt8) (h : isNameStart b = true) :
    isDigit b = false := by
  by_contra hdigit
  rw [isNameStart_eq_false_of_isDigit b (by simpa using hdigit)] at h
  simp at h

/-! ### Plain bytes -/

/-- Plain bytes are ASCII. -/
lemma ascii_of_isPlain (b : UInt8) (h : isPlain b = true) : b < 0x80 := by
  simp only [isPlain, Bool.and_eq_true, decide_eq_true_eq] at h
  exact h.1.1.1.1

/-- Plain bytes are no blanks. -/
lemma isBlank_eq_false_of_isPlain (b : UInt8) (h : isPlain b = true) : isBlank b = false := by
  simp only [isPlain, Bool.and_eq_true, Bool.not_eq_true'] at h
  exact h.1.1.1.2

/-! ### Runs of one class -/

section Runs

variable {p q : UInt8 → Bool}

/-- A text that does not go on with a class does not go on with a part of the class. -/
lemma head?_any_eq_false_of_imp (himp : ∀ b, q b = true → p b = true) {r : Bytes}
    (h : r.head?.any p = false) : r.head?.any q = false := by
  cases r with
  | nil => rfl
  | cons b r =>
    rw [List.head?_cons, Option.any_some] at h ⊢
    by_contra hq
    exact absurd (himp b (by simpa using hq)) (by simp [h])

/-- A run that ends in the first part of a text ends there whatever follows. -/
lemma takeWhile_append_of_stop {r : Bytes} (h : r.head?.any p = false) (s : Bytes) :
    (s ++ r).takeWhile p = s.takeWhile p := by
  induction s with
  | nil =>
    cases r with
    | nil => rfl
    | cons b r =>
      have hb : p b = false := by simpa using h
      simp [hb]
  | cons b s ih => simp only [List.cons_append, List.takeWhile_cons, ih]

/-- What is dropped from the front is the same with some text behind that stops it. -/
lemma dropWhile_append_of_stop {r : Bytes} (h : r.head?.any p = false) (s : Bytes) :
    (s ++ r).dropWhile p = s.dropWhile p ++ r := by
  induction s with
  | nil =>
    cases r with
    | nil => rfl
    | cons b r =>
      have hb : p b = false := by simpa using h
      simp [hb]
  | cons b s ih =>
    simp only [List.cons_append, List.dropWhile_cons, ih]
    split
    · rfl
    · rfl

/-- What follows a run does not go on with it. -/
lemma head?_dropWhile_any (s : Bytes) : (s.dropWhile p).head?.any p = false := by
  have h := List.head?_dropWhile_not p s
  cases hd : (s.dropWhile p).head? with
  | none => rfl
  | some b =>
    rw [hd] at h
    exact h

end Runs

end ZigGolf
