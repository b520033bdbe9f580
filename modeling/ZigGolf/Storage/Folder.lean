import ZigGolf.Bytes.Basic

/-!
# Folders

The part of a file system that a run can see: a folder with directories and regular files in it,
and what opening a path in it leads to.  A path is a list of names between slashes, looked up one
after the other; a lookup fails at the first name that cannot be passed.  A zero byte ends a path.

A path can lead out of the folder, by two dots or by a slash at its start.  Of what is out there
only the directories above the folder are known to exist, so such a path leads to nothing unless a
file has been written there before.
-/

namespace ZigGolf

/-- Why a path cannot be opened. -/
inductive OpenError where
  | notFound
  | notADirectory
  | isADirectory
  | nameTooLong
  /-- A reason given from outside. -/
  | other (reason : Bytes)
  deriving DecidableEq

/-- The usual wording of a reason. -/
def OpenError.reason : OpenError → Bytes
  | notFound => ascii "No such file or directory"
  | notADirectory => ascii "Not a directory"
  | isADirectory => ascii "Is a directory"
  | nameTooLong => ascii "File name too long"
  | other reason => reason

/-- Where a place is counted from. -/
inductive Anchor where
  /-- As many levels above the folder; at level zero it is the folder itself. -/
  | above (levels : Nat)
  /-- The directory that is above all others. -/
  | top
  deriving DecidableEq

/-- A place in the file system: the names on the way down to it from an anchor. -/
structure Place where
  anchor : Anchor
  names : List Bytes
  deriving DecidableEq

namespace Place

/-- The folder itself. -/
def folder : Place := ⟨.above 0, []⟩

/-- The directory above all others. -/
def top : Place := ⟨.top, []⟩

/-- The place of a name in a directory. -/
def child (p : Place) (name : Bytes) : Place := { p with names := p.names ++ [name] }

/-- The directory around a place.  Nothing is above the top, which is its own parent. -/
def parent : Place → Place
  | ⟨.above levels, []⟩ => ⟨.above (levels + 1), []⟩
  | ⟨.top, []⟩ => top
  | ⟨anchor, names⟩ => ⟨anchor, names.dropLast⟩

/-- The text of the path from the folder down to a place, if the place is below the folder. -/
def pathInFolder? (p : Place) : Option Bytes :=
  if p.anchor = .above 0 then some ([slash].intercalate p.names) else none

end Place

/-- What stands at a place. -/
inductive Entry where
  | directory
  | file (content : Bytes)
  deriving DecidableEq

/-- A folder: the directories below it, and the files in all of them with their contents.  What a
run makes outside the folder is kept along with them. -/
structure Folder where
  directories : List Place := []
  files : List (Place × Bytes) := []

/-- The bytes of a path up to its end. -/
def pathText (text : Bytes) : Bytes := text.takeWhile (· != 0)

/-- The names between the slashes of a path. -/
def pathNames (text : Bytes) : List Bytes := text.splitOn slash

/-- The place at which the lookup of a path starts. -/
def pathStart (text : Bytes) : Place := if text.head? = some slash then .top else .folder

/-- The number of bytes that a name may have. -/
abbrev maxNameLength : Nat := 255

/-- The number of bytes that a path may have. -/
abbrev maxPathLength : Nat := 4095

namespace Folder

/-- What stands at a place, if anything.  Every anchor is a directory. -/
def entry? (f : Folder) (p : Place) : Option Entry :=
  match f.files.lookup p with
  | some content => some (.file content)
  | none => if p.names = [] ∨ p ∈ f.directories then some .directory else none

/-- Follows names from a place.  Every name but the last has to lead to a directory; an empty name
and a dot stay where they are, and two dots go back. -/
def follow (f : Folder) (place : Place) : List Bytes → Except OpenError Place
  | [] => .ok place
  | name :: names =>
    match f.entry? place with
    | none => .error .notFound
    | some (.file _) => .error .notADirectory
    | some .directory =>
      if name = [] ∨ name = ascii "." then f.follow place names
      else if name = ascii ".." then f.follow place.parent names
      else if maxNameLength < name.length then .error .nameTooLong
      else f.follow (place.child name) names

/-- Where a path leads.  The last name need not be there. -/
def locate (f : Folder) (text : Bytes) : Except OpenError Place :=
  let text := pathText text
  if text = [] then .error .notFound
  else if maxPathLength < text.length then .error .nameTooLong
  else f.follow (pathStart text) (pathNames text)

/-- The content of the file at a path. -/
def read (f : Folder) (text : Bytes) : Except OpenError Bytes :=
  match f.locate text with
  | .error e => .error e
  | .ok place =>
    match f.entry? place with
    | some (.file content) => .ok content
    | some .directory => .error .isADirectory
    | none => .error .notFound

/-- The folder after a file at a path has been given a new content, or why that cannot be done.  A
file that is not there is created. -/
def write (f : Folder) (text content : Bytes) : Except OpenError Folder :=
  match f.locate text with
  | .error e => .error e
  | .ok place =>
    match f.entry? place with
    | some .directory => .error .isADirectory
    | some (.file _) =>
      .ok { f with files := f.files.map fun p => if p.1 = place then (place, content) else p }
    | none => .ok { f with files := (place, content) :: f.files }

/-- The folder in which names, followed from a place, lead through directories: a directory is made
for every name at which nothing stands.  It ends at a file and at a name that is too long. -/
def makeWay (f : Folder) (place : Place) : List Bytes → Folder
  | [] => f
  | name :: names =>
    if name = [] ∨ name = ascii "." then f.makeWay place names
    else if name = ascii ".." then f.makeWay place.parent names
    else if maxNameLength < name.length then f
    else
      let next := place.child name
      match f.entry? next with
      | some (.file _) => f
      | some .directory => f.makeWay next names
      | none => { f with directories := next :: f.directories }.makeWay next names

/-- The folder with a directory at a path, and with those on the way to it. -/
def makeDirectory (f : Folder) (text : Bytes) : Folder :=
  let text := pathText text
  if text = [] ∨ maxPathLength < text.length then f
  else f.makeWay (pathStart text) (pathNames text)

/-- All files of the folder with their contents, in the order of the bytes of their paths. -/
def listing (f : Folder) : List (Bytes × Bytes) :=
  (f.files.filterMap fun p => p.1.pathInFolder?.map (·, p.2)).mergeSort
    fun a b => decide (a.1 ≤ b.1)

end Folder

end ZigGolf
