import RegisterMachine.Description.Path

/-!
# Files

* `FileError`: why a file could not be read or created.
* `FileSystem`: what loading needs of its surroundings, in any monad.
* `FileTree`: a file system held in memory, with a working directory and the null device.
* `FileTree.read`, `FileTree.create`: what reading a name gives, and the tree after a file was made empty.
-/

namespace RegisterMachine

/-- Why a file could not be read or created. -/
inductive FileError where
  | notFound (name : Bytes)
  | notDirectory (name : Bytes)
  | isDirectory (name : Bytes)
  | other (name text : Bytes)

/-- The text of a file error. -/
def FileError.message : FileError → Bytes
  | notFound name => concat ["open ", name, ": no such file or directory"]
  | notDirectory name => concat ["open ", name, ": not a directory"]
  | isDirectory name => concat ["read ", name, ": is a directory"]
  | other name text => concat ["open ", name, ": ", text]

/-- Reads a file by its name. -/
structure FileSystem (m : Type → Type) where
  contents : Bytes → m (Except FileError Bytes)

/-- Files by the parts of their path. -/
structure FileTree where
  files : List (List Bytes × Bytes) := []

namespace FileTree

/-- The working directory.  Its last part is empty, so that no path leads into it by name. -/
def home : List Bytes := ["tmp", []]

/-- The null device, which is always empty. -/
def nullDevice : List Bytes := ["dev", "null"]

/-- The working directory with files in it that are given by path. -/
def ofPaths (files : List (Bytes × Bytes)) : FileTree :=
  ⟨(nullDevice, []) :: files.map fun f => (home ++ splitOn Path.slash (Path.clean f.1), f.2)⟩

/-- One path begins with the other. -/
def isAbove (above path : List Bytes) : Bool := above.length ≤ path.length && path.take above.length == above

/-- A directory: it leads to the working directory or to a file below it. -/
def isDirectory (t : FileTree) (parts : List Bytes) : Bool :=
  isAbove parts home || t.files.any fun f => parts != f.1 && isAbove parts f.1

/-- The longest part of a path, and the longest path. -/
def maxPart : Nat := 255

@[inherit_doc maxPart]
def maxPath : Nat := 4095

/-- The error of a part or a path that is too long. -/
def tooLong (name : Bytes) : FileError := .other name "file name too long"

/-- Follows a path part by part from a directory, whose parts are kept last first.  A part after a file, even an
empty one, is an error. -/
def follow (t : FileTree) (name : Bytes) : List Bytes → List Bytes → Except FileError (List Bytes)
  | here, [] => .ok here
  | here, part :: rest =>
    if (t.files.lookup here.reverse).isSome then .error (.notDirectory name)
    else if !t.isDirectory here.reverse then .error (.notFound name)
    else if part.isEmpty || part == utf8 "." then t.follow name here rest
    else if part == utf8 ".." then t.follow name (here.drop 1) rest
    else if maxPart < part.length then .error (tooLong name)
    else t.follow name (part :: here) rest

/-- Where the parts of a name lead. -/
def locate (t : FileTree) (name : Bytes) (parts : List Bytes) : Except FileError (List Bytes) :=
  if name.contains 0 then .error (.other name "invalid argument")
  else if name.isEmpty then .error (.notFound name)
  else if maxPath < name.length then .error (tooLong name)
  else (t.follow name (if Path.isAbsolute name then [] else home.reverse) parts).map List.reverse

/-- The contents of a file. -/
def read (t : FileTree) (name : Bytes) : Except FileError Bytes := do
  let place ← t.locate name (splitOn Path.slash name)
  match t.files.lookup place with
  | some text => return text
  | none => .error (if t.isDirectory place then .isDirectory name else .notFound name)

/-- The tree with one file set. -/
def write (t : FileTree) (place : List Bytes) (text : Bytes) : FileTree :=
  ⟨(place, text) :: t.files.filter fun f => f.1 != place⟩

/-- The parts of the directory that a name is in, and its last part; slashes at the end do not count. -/
def lastPart (name : Bytes) : List Bytes × Bytes :=
  let (directory, last) := Path.split (name.reverse.dropWhile (· == Path.slash)).reverse
  (splitOn Path.slash directory, last)

/-- The tree with an empty file of that name.  Only a directory can have a slash at the end of its name. -/
def create (t : FileTree) (name : Bytes) : Except FileError FileTree := do
  let (parts, last) := lastPart name
  let _ ← t.locate name parts
  let isDots := last == utf8 "." || last == utf8 ".."
  if !isDots && name.getLast? == some Path.slash then .error (.other name "is a directory")
  let place ← t.locate name (parts ++ [last])
  if t.isDirectory place then .error (.other name "is a directory")
  return t.write place []

/-- The tree as a file system. -/
def system (t : FileTree) : FileSystem Id := ⟨t.read⟩

end FileTree

end RegisterMachine
