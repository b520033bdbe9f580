import ZigGolf.Token.Kind

/-!
# Numerals

A numeral is read from the left in four parts: the mark of its base, its whole digits, a fraction
after a point, and an exponent.  In each run of digits single underscores may stand between digits.
A part is only looked for while all parts before it are sound, and a fraction only where a digit
follows the point, so that a range of two numbers is not taken for a fraction.

A numeral that is unsound, or that runs into a further letter or digit, is one invalid token
together with all letters and digits that follow.
-/

namespace ZigGolf

/-- The base of a numeral. -/
inductive Base where
  | binary
  | octal
  | decimal
  | hexadecimal
  deriving DecidableEq

namespace Base

/-- The digits of a base. -/
def isDigit : Base → UInt8 → Bool
  | binary, b => b == byte '0' || b == byte '1'
  | octal, b => byte '0' ≤ b && b ≤ byte '7'
  | decimal, b => ZigGolf.isDigit b
  | hexadecimal, b => isHexDigit b

/-- The bases in which fractions can be written. -/
def hasFraction : Base → Bool
  | decimal | hexadecimal => true
  | binary | octal => false

/-- The letters that start an exponent.  Hexadecimal numerals need one that is no digit. -/
def isExponentMark : Base → UInt8 → Bool
  | decimal, b => b == byte 'e' || b == byte 'E'
  | hexadecimal, b => b == byte 'p' || b == byte 'P'
  | _, _ => false

/-- Splits the mark of a base off a numeral; without a mark the base is decimal. -/
def splitMark : Bytes → Base × Bytes × Bytes
  | zero :: mark :: rest =>
    if zero == byte '0' && mark == byte 'x' then (hexadecimal, [zero, mark], rest)
    else if zero == byte '0' && mark == byte 'o' then (octal, [zero, mark], rest)
    else if zero == byte '0' && mark == byte 'b' then (binary, [zero, mark], rest)
    else (decimal, [], zero :: mark :: rest)
  | s => (decimal, [], s)

/-- The mark and what follows it make up the text. -/
theorem splitMark_append (s : Bytes) : (splitMark s).2.1 ++ (splitMark s).2.2 = s := by
  unfold splitMark
  split
  · repeat' split
    all_goals rfl
  · rfl

end Base

/-- A run of digits and underscores in which every underscore stands between two digits.
`afterDigit` tells whether a digit stands directly before the run. -/
def wellSeparatedAfter (afterDigit : Bool) : Bytes → Bool
  | [] => afterDigit
  | b :: rest =>
    if b == underscore then afterDigit && wellSeparatedAfter false rest
    else wellSeparatedAfter true rest

/-- A run of digits with single underscores between them, and at least one digit. -/
def wellSeparated (run : Bytes) : Bool := wellSeparatedAfter false run

/-- A numeral as far as it has been read. -/
structure Numeral where
  base : Base
  /-- Whether a fraction or an exponent has been read. -/
  isFloat : Bool
  /-- Whether every run of digits so far is well separated. -/
  sound : Bool
  /-- The bytes read. -/
  text : Bytes
  /-- The bytes that follow. -/
  rest : Bytes

namespace Numeral

/-- The bytes that a run of digits is made of. -/
def isRunByte (base : Base) (b : UInt8) : Bool := base.isDigit b || b == underscore

/-- Reads a run of digits. -/
def readDigits (n : Numeral) (base : Base) : Numeral :=
  let run := n.rest.takeWhile (isRunByte base)
  { n with
    sound := n.sound && wellSeparated run
    text := n.text ++ run
    rest := n.rest.dropWhile (isRunByte base) }

/-- Reads the mark of the base and the whole digits. -/
def readWhole (s : Bytes) : Numeral :=
  let (base, mark, rest) := Base.splitMark s
  readDigits { base, isFloat := false, sound := true, text := mark, rest } base

/-- Reads a fraction, if a point and a digit follow. -/
def readFraction (n : Numeral) : Numeral :=
  match n.rest with
  | point :: digit :: rest =>
    if n.sound && n.base.hasFraction && point == byte '.' && n.base.isDigit digit then
      readDigits { n with isFloat := true, text := n.text ++ [point], rest := digit :: rest } n.base
    else n
  | _ => n

/-- Splits the sign of an exponent off a text. -/
def splitSign : Bytes → Bytes × Bytes
  | sign :: rest =>
    if sign == byte '+' || sign == byte '-' then ([sign], rest) else ([], sign :: rest)
  | [] => ([], [])

/-- Reads an exponent, if its mark follows. -/
def readExponent (n : Numeral) : Numeral :=
  match n.rest with
  | mark :: rest =>
    if n.sound && n.base.isExponentMark mark then
      let (sign, rest) := splitSign rest
      readDigits { n with isFloat := true, text := n.text ++ mark :: sign, rest } .decimal
    else n
  | [] => n

/-- Reads the parts of a numeral in their order. -/
def read (s : Bytes) : Numeral := (readWhole s).readFraction.readExponent

/-! ### Nothing is lost -/

/-- Reading digits moves them from the rest to the text. -/
@[simp] theorem readDigits_append (n : Numeral) (base : Base) :
    (n.readDigits base).text ++ (n.readDigits base).rest = n.text ++ n.rest := by
  simp [readDigits]

/-- The whole part of a numeral is cut out with nothing lost. -/
theorem readWhole_append (s : Bytes) : (readWhole s).text ++ (readWhole s).rest = s := by
  simp [readWhole, Base.splitMark_append]

/-- Reading a fraction moves it from the rest to the text. -/
theorem readFraction_append (n : Numeral) :
    n.readFraction.text ++ n.readFraction.rest = n.text ++ n.rest := by
  unfold readFraction
  split
  · next hrest =>
    split
    · simp [hrest]
    · rfl
  · rfl

/-- A sign is split off with nothing lost. -/
theorem splitSign_append (s : Bytes) : (splitSign s).1 ++ (splitSign s).2 = s := by
  unfold splitSign
  split
  · split <;> rfl
  · rfl

/-- Reading an exponent moves it from the rest to the text. -/
theorem readExponent_append (n : Numeral) :
    n.readExponent.text ++ n.readExponent.rest = n.text ++ n.rest := by
  unfold readExponent
  split
  · next hrest =>
    split
    · simp [hrest, splitSign_append]
    · rfl
  · rfl

/-- A numeral is cut out with nothing lost. -/
theorem read_append (s : Bytes) : (read s).text ++ (read s).rest = s := by
  rw [read, readExponent_append, readFraction_append, readWhole_append]

/-! ### Something is read -/

/-- Reading on adds to what has been read. -/
theorem exists_readFraction_eq (n : Numeral) : ∃ t, n.readFraction.text = n.text ++ t := by
  unfold readFraction
  split
  · split
    · exact ⟨_, List.append_assoc ..⟩
    · exact ⟨[], by simp⟩
  · exact ⟨[], by simp⟩

/-- Reading an exponent only adds to the text. -/
theorem exists_readExponent_eq (n : Numeral) : ∃ t, n.readExponent.text = n.text ++ t := by
  unfold readExponent
  split
  · split
    · exact ⟨_, List.append_assoc ..⟩
    · exact ⟨[], by simp⟩
  · exact ⟨[], by simp⟩

/-- A text that starts with a digit starts with a numeral that is not empty. -/
theorem readWhole_ne_nil {b : UInt8} (hb : isDigit b = true) (s : Bytes) :
    (readWhole (b :: s)).text ≠ [] := by
  have hrun : isRunByte .decimal b = true := by simp [isRunByte, Base.isDigit, hb]
  cases s with
  | nil => simp [readWhole, Base.splitMark, readDigits, hrun]
  | cons c s =>
    simp only [readWhole, Base.splitMark]
    repeat' split
    all_goals simp [readDigits, hrun]

/-- A numeral has at least the digit that it starts with. -/
theorem read_ne_nil {b : UInt8} (hb : isDigit b = true) (s : Bytes) :
    (read (b :: s)).text ≠ [] := by
  obtain ⟨t, ht⟩ := exists_readFraction_eq (readWhole (b :: s))
  obtain ⟨u, hu⟩ := exists_readExponent_eq (readWhole (b :: s)).readFraction
  rw [read, hu, ht]
  simp [readWhole_ne_nil hb s]

end Numeral

/-- Splits a numeral off a text that starts with a digit: its kind, its bytes, and the rest. -/
def cutNumber (s : Bytes) : Kind × Bytes × Bytes :=
  let n := Numeral.read s
  if n.sound && !n.rest.head?.any isNamePart then
    (if n.isFloat then .floatLit else .intLit, n.text, n.rest)
  else
    (.invalid, n.text ++ n.rest.takeWhile isNamePart, n.rest.dropWhile isNamePart)

/-- A number, sound or not, is cut out with nothing lost. -/
theorem cutNumber_append (s : Bytes) : (cutNumber s).2.1 ++ (cutNumber s).2.2 = s := by
  unfold cutNumber
  dsimp only
  split
  · exact Numeral.read_append s
  · simp [Numeral.read_append]

/-- A number, sound or not, has at least the digit that it starts with. -/
theorem cutNumber_ne_nil {b : UInt8} (hb : isDigit b = true) (s : Bytes) :
    (cutNumber (b :: s)).2.1 ≠ [] := by
  have h := Numeral.read_ne_nil hb s
  unfold cutNumber
  dsimp only
  split
  · exact h
  · simp [h]

end ZigGolf
