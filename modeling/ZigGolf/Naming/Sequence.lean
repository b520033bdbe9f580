import ZigGolf.Bytes.Basic

/-!
# Short names

The sequence of all names made of letters, shortest first and names of one length in the order of
their letters: the 52 single letters, then all names of two letters, and so on.  A name is found
from its place in the sequence.  Places are 64-bit words, which suffices for all names of up to
eleven letters.
-/

namespace ZigGolf

/-- The letters of short names, in order: the lower-case ones and then the upper-case ones. -/
def letter (i : UInt64) : UInt8 :=
  if i < 26 then 0x61 + i.toUInt8 else 0x41 + (i - 26).toUInt8

/-- The length of the name at a place and its place among the names of that length.  The search
stands at names of `length` letters, of which there are `block`, and `index` counts from the first
of them. -/
def locateName (length : Nat) (block index : UInt64) : Nat × UInt64 :=
  if block = 0 ∨ index < block then (length, index)
  else locateName (length + 1) (block * 52) (index - block)
termination_by index.toNat
decreasing_by
  next h =>
  have hb : block ≠ 0 := fun h' => h (.inl h')
  have hle : block ≤ index := UInt64.not_lt.1 fun h' => h (.inr h')
  have hpos : 0 < block.toNat := Nat.pos_of_ne_zero fun h' => hb (UInt64.toNat.inj h')
  rw [UInt64.toNat_sub_of_le _ _ hle]
  have := UInt64.le_iff_toNat_le.1 hle
  omega

/-- The name of `length` letters with a given place among them, in front of `suffix`.  Its letters
are the digits of the place in base 52. -/
def spellName : (length : Nat) → (index : UInt64) → (suffix : Bytes) → Bytes
  | 0, _, suffix => suffix
  | length + 1, index, suffix => spellName length (index / 52) (letter (index % 52) :: suffix)

/-- The name at a given place of the sequence. -/
def nameAt (index : UInt64) : Bytes :=
  let (length, rank) := locateName 1 52 index
  spellName length rank []

/-- A place in the sequence from which names are taken one after the other. -/
structure NameSupply where
  /-- The place of the next name. -/
  cursor : UInt64 := 0

/-- The next name, and the supply without it. -/
def NameSupply.next (supply : NameSupply) : Bytes × NameSupply :=
  (nameAt supply.cursor, ⟨supply.cursor + 1⟩)

end ZigGolf
