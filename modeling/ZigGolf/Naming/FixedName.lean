import ZigGolf.Token.Keyword

/-!
# Names with a fixed meaning

Identifiers that a program cannot choose: the primitive types and values, the discard, and the
entry point.  They keep their spelling, with one exception: where pointers are known to have 64
bits, the two integer types of pointer size have a shorter spelling.
-/

namespace ZigGolf

/-- The names of the primitive types, except the integer types of a given width. -/
def languageTypes : List Bytes :=
  ["isize", "usize", "f16", "f32", "f64", "f80", "f128", "bool", "void", "noreturn", "type",
    "anyerror", "anyopaque", "comptime_int", "comptime_float", "c_char", "c_short", "c_ushort",
    "c_int", "c_uint", "c_long", "c_ulong", "c_longlong", "c_ulonglong", "c_longdouble"].map ascii

/-- The names of the primitive values. -/
def languageValues : List Bytes := ["true", "false", "null", "undefined"].map ascii

/-- The name to which a value is assigned that is not wanted. -/
def discardSpelling : Bytes := ascii "_"

/-- The name of the function in which a program starts. -/
def entryPoint : Bytes := ascii "main"

/-- The integer types of pointer size, with the types they are on 64-bit targets. -/
def pointerAliases : List (Bytes × Bytes) :=
  [(ascii "isize", ascii "i64"), (ascii "usize", ascii "u64")]

/-- The names with a fixed meaning. -/
def fixedNames : List Bytes := languageTypes ++ languageValues ++ [discardSpelling, entryPoint]

/-- How a name with a fixed meaning is written; `ptr64` tells whether pointers are known to have 64
bits. -/
def fixedSpelling (ptr64 : Bool) (name : Bytes) : Bytes :=
  if ptr64 then (pointerAliases.lookup name).getD name else name

/-- The spellings that are never given to another name: the names with a fixed meaning, and the
ways they are written. -/
def isReserved (ptr64 : Bool) (name : Bytes) : Bool :=
  fixedNames.contains name || ptr64 && pointerAliases.any fun p => p.2 == name

/-- Whether a name is spelled as an integer type of a given width: `i` or `u` and decimal digits. -/
def isSizedInt : Bytes → Bool
  | sign :: digit :: rest =>
    (sign == byte 'i' || sign == byte 'u') && isDigit digit && rest.all isDigit
  | _ => false

/-- The spellings that a short name must not have: keywords and reserved names. -/
def takenNames (ptr64 : Bool) : List Bytes :=
  let always := keywordSpellings ++ fixedNames
  if ptr64 then always ++ pointerAliases.map (·.2) else always

end ZigGolf
