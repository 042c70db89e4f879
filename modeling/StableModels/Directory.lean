import StableModels.ProgramFile

/-!
# Directories

A directory as the list of its files, for runs that are to touch no file system.

A path is followed name by name. There are no directories inside, so that a name leads on only
if it means the directory itself or the one above; with any other name the path has to end. A
slash at the end of a path asks for a directory there. Paths that start elsewhere lead nowhere.
-/

namespace StableModels

/-- The names and contents of files; of two files with one name the first counts. A file that
stands above the directory has the way up in front of its name. -/
abbrev Directory := List (String × List UInt8)

namespace Directory

open FileProblem

/-! ### Paths -/

/-- The greatest number of bytes in a name. -/
def nameLimit : Nat := 255

/-- The greatest number of bytes in a path. -/
def pathLimit : Nat := 4095

/-- Where a path leads. -/
inductive Destination where
  /-- To this directory or one above it. -/
  | directory
  /-- To a name in the directory so many levels above this one; `slashed` if slashes follow. -/
  | entry (above : Nat) (name : String) (slashed : Bool)

/-- The name of a file that stands so many levels above the directory. -/
def fileName (above : Nat) (name : String) : String :=
  String.join (List.replicate above "../") ++ name

/-- What hinders a path that leads on from a name. -/
def hindrance (directory : Directory) (above : Nat) (name : String) : FileProblem :=
  if nameLimit < name.utf8ByteSize then tooLong
  else if (List.lookup (fileName above name) directory).isSome then notDirectory
  else missing

/-- Follows names from the directory so many levels above this one. -/
def follow (directory : Directory) : Nat → List String → Except FileProblem Destination
  | _, [] => .ok .directory
  | above, name :: names =>
    if name == "" || name == "." then follow directory above names
    else if name == ".." then follow directory (above + 1) names
    else if names.all fun name => name == "" then .ok (.entry above name !names.isEmpty)
    else .error (hindrance directory above name)

/-- Follows a path. -/
def destination (directory : Directory) (path : String) : Except FileProblem Destination :=
  if path.toList.contains '\x00' then .error nulInside
  else if pathLimit < path.utf8ByteSize then .error tooLong
  else if path == "" || path.startsWith "/" then .error missing
  else follow directory 0 (path.splitOn "/")

/-! ### Files -/

/-- The contents of a file. -/
def read (directory : Directory) (path : String) : Except FileProblem (List UInt8) :=
  match directory.destination path with
  | .error problem => .error problem
  | .ok .directory => .error isDirectory
  | .ok (.entry above name slashed) =>
    if nameLimit < name.utf8ByteSize then .error tooLong
    else
      match List.lookup (fileName above name) directory with
      | none => .error missing
      | some contents => if slashed then .error notDirectory else .ok contents

/-- The directory after the contents of a file were written. -/
def write (directory : Directory) (path : String) (contents : List UInt8) :
    Except FileProblem Directory :=
  match directory.destination path with
  | .error problem => .error problem
  | .ok .directory => .error isDirectory
  | .ok (.entry above name slashed) =>
    if slashed then .error isDirectory
    else if nameLimit < name.utf8ByteSize then .error tooLong
    else .ok ((fileName above name, contents) :: directory)

end Directory

end StableModels
