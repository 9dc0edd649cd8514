import LoxFront.Session.Bytes
import LoxFront.Session.Log
/-!
# Folders

A folder holds files under their names, and nothing else is known to lie
in it or around it. A path is followed component by component from the
folder: an empty component or a point stays, two points go up, and a name
leads to a file, behind which no path goes on. The empty path has nothing
to follow and leads nowhere. Names and paths have limits, counted in bytes:
a path is measured before it is followed, a name when the path comes to it.

A path is what an argument can hold: no character of it is U+0000.
-/

namespace LoxFront

/-- The files of a folder, by name. -/
structure Folder where
  files : List (String × Bytes)

namespace Folder

/-- Where a path stands that has met directories only. -/
inductive Place where
  /-- In the folder itself. -/
  | here
  /-- In a directory above it. -/
  | above
  deriving DecidableEq

/-- How many bytes a name has at most. -/
def nameLimit : Nat := 255

/-- How many bytes a path has at most. -/
def pathLimit : Nat := 4095

/-- The content of the file with this name. -/
def content? (folder : Folder) (name : String) : Option Bytes :=
  (folder.files.find? (·.1 == name)).map Prod.snd

/-- Follows the components of a path from a place. -/
def follow (folder : Folder) : Place → List String → Except Failure Bytes
  | _, [] => .error .directory
  | place, component :: rest =>
    if component == "" || component == "." then folder.follow place rest
    else if component == ".." then folder.follow .above rest
    else if nameLimit < component.utf8ByteSize then .error .nameTooLong
    else
      match place, folder.content? component with
      | .here, some bytes => if rest.isEmpty then .ok bytes else .error .beyondFile
      | _, _ => .error .missing

/-- The components of a path: what stands between its slashes. -/
def components (path : String) : List String :=
  (path.toList.splitOn '/').map String.ofList

/-- **What a path reads.** Nothing is at the empty path, and a path that
starts with a slash starts above the folder. -/
def read (folder : Folder) (path : String) : Except Failure Bytes :=
  if path = "" then .error .missing
  else if pathLimit < path.utf8ByteSize then .error .nameTooLong
  else folder.follow (if ['/'].isPrefixOf path.toList then .above else .here) (components path)

end Folder

end LoxFront
