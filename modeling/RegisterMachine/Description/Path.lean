import RegisterMachine.Text.Bytes

/-!
# Paths

File names as slash separated paths.  All functions are lexical: they do not look at any file.

* `Path.clean`: the shortest path that names the same place.
* `Path.join`, `Path.directory`, `Path.base`, `Path.extension`.
-/

namespace RegisterMachine.Path

/-- The byte between the parts of a path. -/
def slash : UInt8 := byte '/'

/-- A path that starts at the root. -/
def isAbsolute : Bytes → Bool
  | c :: _ => c == slash
  | [] => false

/-- One more part of a path, whose parts so far are kept last first.  `..` takes away a part before it, and stands
for itself only at the start of a relative path. -/
def cleanStep (rooted : Bool) (parts : List Bytes) (part : Bytes) : List Bytes :=
  if part.isEmpty || part == utf8 "." then parts
  else if part == utf8 ".." then
    match parts with
    | [] => if rooted then [] else [part]
    | last :: before => if last == utf8 ".." then part :: parts else before
  else part :: parts

/-- The shortest path that names the same place; `.` if nothing is left. -/
def clean (path : Bytes) : Bytes :=
  let rooted := isAbsolute path
  let parts := ((splitOn slash path).foldl (cleanStep rooted) []).reverse
  let joined := join [slash] parts
  if rooted then slash :: joined else if joined.isEmpty then utf8 "." else joined

/-- A path below a directory; empty parts are left out. -/
def below (directory name : Bytes) : Bytes :=
  if directory.isEmpty then if name.isEmpty then [] else clean name
  else if name.isEmpty then clean directory
  else clean (directory ++ slash :: name)

/-- The path up to and with the last slash, and the rest. -/
def split (path : Bytes) : Bytes × Bytes :=
  let name := (path.reverse.takeWhile (· != slash)).reverse
  (path.take (path.length - name.length), name)

/-- All but the last part. -/
def directory (path : Bytes) : Bytes := clean (split path).1

/-- The last part, slashes at the end aside. -/
def base (path : Bytes) : Bytes :=
  if path.isEmpty then utf8 "."
  else
    let trimmed := (path.reverse.dropWhile (· == slash)).reverse
    if trimmed.isEmpty then [slash] else (split trimmed).2

/-- The last part from its last point on; empty if it has none. -/
def extension (path : Bytes) : Bytes :=
  let name := (split path).2
  let after := (name.reverse.takeWhile (· != byte '.')).reverse
  if after.length == name.length then [] else byte '.' :: after

end RegisterMachine.Path
