import ZigGolf.Naming.FixedName
import ZigGolf.Naming.Sequence
import Std.Data.TreeMap

/-!
# Renaming

A renaming gives each name that a program has chosen a short name, in the order in which the names
are met.  Names with a fixed meaning and integer types of a given width are not renamed, and a
short name is passed over if it is a keyword or reserved.  Once given, a short name never changes.
-/

namespace ZigGolf

/-- The place of the first short name from `index` on that is not taken.  A name that is met is not
met again further on, so it is dropped from `taken` and the search ends. -/
def freePlace (taken : List Bytes) (index : UInt64) : UInt64 :=
  if nameAt index ∈ taken then freePlace (taken.erase (nameAt index)) (index + 1) else index
termination_by taken.length
decreasing_by
  next h =>
  rw [List.length_erase_of_mem h]
  exact Nat.sub_lt (List.length_pos_of_mem h) Nat.one_pos

/-- The short names given so far. -/
structure Renaming where
  /-- Whether pointers are known to have 64 bits. -/
  ptr64 : Bool := false
  /-- The names met so far that a program has chosen, each with its short name. -/
  assigned : Std.TreeMap Bytes Bytes := ∅
  /-- The place from which the next short name is searched. -/
  cursor : UInt64 := 0

namespace Renaming

/-- How many short names have been given. -/
def count (r : Renaming) : Nat := r.assigned.size

/-- The new spelling of a name, which is given now if the name is met for the first time. -/
def rename (r : Renaming) (name : Bytes) : Bytes × Renaming :=
  if fixedNames.contains name then (fixedSpelling r.ptr64 name, r)
  else
    match r.assigned[name]? with
    | some short => (short, r)
    | none =>
      if isSizedInt name then (name, r)
      else
        let place := freePlace (takenNames r.ptr64) r.cursor
        let short := nameAt place
        (short, { r with assigned := r.assigned.insert name short, cursor := place + 1 })

/-- The name between the quotes of a quoted identifier. -/
def quotedName? : Bytes → Option Bytes
  | sigil :: opening :: rest =>
    if sigil == atSign && opening == quote && rest.getLast? == some quote then some rest.dropLast
    else none
  | _ => none

/-- The name that an identifier stands for.  The quotes of a quoted identifier are redundant, and
it stands for the name between them, unless without them it would be something else: a keyword, an
integer type, or a reserved name other than the entry point. -/
def key (r : Renaming) (lexeme : Bytes) : Bytes :=
  match quotedName? lexeme with
  | some name =>
    if isPlainName name && (Keyword.ofSpelling? name).isNone && !isSizedInt name
        && (name == entryPoint || !isReserved r.ptr64 name) then name
    else lexeme
  | none => lexeme

/-- The new spelling of an identifier. -/
def renameIdentifier (r : Renaming) (lexeme : Bytes) : Bytes × Renaming := r.rename (r.key lexeme)

end Renaming

end ZigGolf
