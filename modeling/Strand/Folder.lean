import Strand.Failure
import Strand.Table

/-!
# Folders of text files

A folder in memory, for running the command line without a disk. A file is held under
the path that leads to it, with slashes between the names; the folders on the way
exist because the file does.

A path can lead out of the folder, upwards or from the root. Of what lies there only
what every system has is known: the root, two folders under it and the null device. A
file written out there is not kept.
-/

namespace Strand

/-- Files by their paths. -/
structure Folder where
  files : Table String := ∅

instance : Inhabited Folder := ⟨{}⟩

namespace Folder

/-- The bytes that a name on a path may have. -/
def maxNameSize : Nat := 255

/-- The bytes that a path may have. -/
def maxPathSize : Nat := 4095

/-- A folder that a path can pass through. -/
inductive Place where
  /-- Under these names in the folder itself. -/
  | inside (names : List String)
  /-- Somewhere above the folder. -/
  | above
  /-- Under these names from the root. -/
  | fromRoot (names : List String)
deriving DecidableEq, Inhabited

/-- The folder around a place. The root is in itself. -/
def Place.up : Place → Place
  | .inside [] => .above
  | .inside names => .inside names.dropLast
  | .above => .above
  | .fromRoot names => .fromRoot names.dropLast

/-- What a name stands for in a place. -/
inductive Entry where
  | folder (place : Place)
  /-- A file of the folder, with its path. -/
  | file (path : String)
  /-- An empty file that stays empty. -/
  | nullDevice
  /-- Nothing, with the path that a new file has if it is one of the folder. -/
  | missing (path : Option String)
deriving DecidableEq, Inhabited

/-- A path from the names on it. -/
def join (names : List String) : String := "/".intercalate names

/-- Whether there is a folder under these names. -/
def isFolder (d : Folder) (names : List String) : Bool :=
  d.files.names.any fun p => p.startsWith (join names ++ "/")

def lookupInside (d : Folder) (names : List String) : Entry :=
  let path := join names
  if d.isFolder names then .folder (.inside names)
  else if d.files.contains path then .file path
  else .missing (some path)

/-- What is under these names from the root, on every system. -/
def lookupFromRoot : List String → Entry
  | ["dev"] => .folder (.fromRoot ["dev"])
  | ["tmp"] => .folder (.fromRoot ["tmp"])
  | ["dev", "null"] => .nullDevice
  | _ => .missing none

/-- Look a name up in a place. Only a name that is looked up can be too long. -/
def lookup (d : Folder) (place : Place) (name : String) : Except FileFault Entry :=
  if name = "." then .ok (.folder place)
  else if name = ".." then .ok (.folder place.up)
  else if maxNameSize < name.utf8ByteSize then .error .nameTooLong
  else
    match place with
    | .inside names => .ok (d.lookupInside (names ++ [name]))
    | .above => .ok (.missing none)
    | .fromRoot names => .ok (lookupFromRoot (names ++ [name]))

/-- Go on to the folder of this name. -/
def enter (d : Folder) (place : Place) (name : String) : Except FileFault Place := do
  match ← d.lookup place name with
  | .folder place => .ok place
  | .file _ | .nullDevice => .error .notDirectory
  | .missing _ => .error .notFound

/-- The place that a path leads to but for its last name, and that name. Only the root
has none. -/
def locate (d : Folder) (path : String) : Except FileFault (Place × Option String) := do
  if path.isEmpty then throw .notFound
  if maxPathSize < path.utf8ByteSize then throw .nameTooLong
  let start := if path.startsWith "/" then Place.fromRoot [] else .inside []
  let names := (path.splitOn "/").filter fun n => n != ""
  let place ← names.dropLast.foldlM d.enter start
  pure (place, names.getLast?)

/-- The text of a file. A path that ends in a slash can only lead to a folder. -/
def read (d : Folder) (path : String) : Except FileFault String := do
  let (place, some name) ← d.locate path | throw .isDirectory
  let ofFile := fun text : String =>
    if path.endsWith "/" then throw FileFault.notDirectory else pure text
  match ← d.lookup place name with
  | .folder _ => throw .isDirectory
  | .file p => ofFile ((d.files.find? p).getD "")
  | .nullDevice => ofFile ""
  | .missing _ => throw .notFound

/-- Put a text into a file, which is made when there is none. A path that ends in a
slash is refused before its last name is looked up. -/
def write (d : Folder) (path text : String) : Except FileFault Folder := do
  let (place, some name) ← d.locate path | throw .isDirectory
  if path.endsWith "/" then throw .isDirectory
  match ← d.lookup place name with
  | .folder _ => throw .isDirectory
  | .file p | .missing (some p) => pure { d with files := d.files.insert p text }
  | .nullDevice | .missing none => pure d

end Folder

end Strand
