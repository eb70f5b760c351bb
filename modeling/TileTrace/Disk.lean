import TileTrace.Pieces

/-!
# Diagram files

Diagrams are written to files, and the files of one folder are kept. A path leads
through the directories of a disk to the place of a file: from the root if it
starts with a slash, and from the working directory otherwise. `Disk.resolve`
follows it. A file of the folder is kept under its name, and a file of another
directory is written but not kept. There is no file at a path through a missing
directory, at the path of a directory, or at a path that is too long.
-/

namespace TileTrace

/-- A directory: the names on the way to it from the root. -/
abbrev Directory := List String

/-- A disk: the folder whose files are kept, the directory where relative paths start, further
directories, and the kept files by name. The directories around a directory are there as well. -/
structure Disk where
  folder : Directory
  working : Directory
  others : List Directory := []
  files : List (String × String) := []
  deriving DecidableEq, Repr, Inhabited

namespace Disk

/-- Where the file of a path is. -/
inductive Destination where
  | file (name : String)
  | elsewhere
  deriving DecidableEq, Repr, Inhabited

/-- The longest name of a file, in bytes. -/
def maxNameSize : Nat := 255

/-- The longest path, in bytes. -/
def maxPathSize : Nat := 4095

/-- Is there such a directory? -/
def hasDirectory (disk : Disk) (directory : Directory) : Bool :=
  (disk.folder :: disk.working :: disk.others).any directory.isPrefixOf

/-- The place of a file in a directory. -/
def destination (disk : Disk) (directory : Directory) (name : String) : Option Destination :=
  if name = "" ∨ name = "." ∨ name = ".." then none
  else if maxNameSize < name.utf8ByteSize then none
  else if disk.hasDirectory (directory ++ [name]) then none
  else if directory = disk.folder then some (.file name)
  else some .elsewhere

/-- Follow the components of a path from a directory. The root is the directory above itself. -/
def follow (disk : Disk) (directory : Directory) : List String → Option Destination
  | [] => none
  | [name] => disk.destination directory name
  | component :: components =>
      if component = "" ∨ component = "." then disk.follow directory components
      else if component = ".." then disk.follow directory.dropLast components
      else
        let next := directory ++ [component]
        if disk.hasDirectory next then disk.follow next components else none

/-- Where the file of a path is, if there can be one. -/
def resolve (disk : Disk) (path : String) : Option Destination :=
  if maxPathSize < path.utf8ByteSize then none
  else match (pieces '/' path.toList).map String.ofList with
    | "" :: component :: components => disk.follow [] (component :: components)
    | components => disk.follow disk.working components

/-- The disk after a file was written, or `none` when the file cannot be opened. -/
def write (disk : Disk) (path content : String) : Option Disk :=
  match disk.resolve path with
  | some (.file name) =>
      some { disk with files := (name, content) :: disk.files.filter (·.1 ≠ name) }
  | some .elsewhere => some disk
  | none => none

/-- The kept files, sorted by name. -/
def listing (disk : Disk) : List (String × String) :=
  disk.files.mergeSort fun file other => file.1 ≤ other.1

end Disk

end TileTrace
