import RegisterMachine.Form.Reading

/-!
# Sources

A source is a sequence of named texts that are read as one.

* `Source.position`: the file, line and column of an offset.
* `Source.readOne`: the source as exactly one form.
* `Source.readAll`: all its forms, up to the first error.
-/

namespace RegisterMachine

/-- A named piece of a source. -/
structure SourceFile where
  name : Bytes
  text : Bytes

/-- Named texts that are read as one. -/
abbrev Source := List SourceFile

/-- A file name and a line and column counted from one. -/
structure Position where
  name : Bytes
  line : Nat
  column : Nat
deriving DecidableEq, Repr

/-- What is wrong with a source. -/
inductive SyntaxProblem where
  | unreadable (error : ReadError)
  /-- A form was read, and something other than blanks follows at the offset. -/
  | leftover (offset : Nat)

/-- A problem and where it is. -/
structure SyntaxError where
  position : Position
  problem : SyntaxProblem

/-- The text of a problem. -/
def SyntaxProblem.message : SyntaxProblem → Bytes
  | unreadable e => e.message
  | leftover offset => utf8 "unexpected input after form at offset " ++ decimal offset

/-- The position, the file name left out if it is empty, and the problem. -/
def SyntaxError.message (e : SyntaxError) : Bytes :=
  let place := concat [decimal e.position.line, ":", decimal e.position.column, ": ", e.problem.message]
  if e.position.name.isEmpty then place else concat [e.position.name, ":", place]

namespace Source

/-- A single text without a name. -/
def ofText (text : Bytes) : Source := [⟨[], text⟩]

/-- All texts, one after the other. -/
def text (s : Source) : Bytes := (s.map SourceFile.text).flatten

/-- The first file, of those from `base` on, that reaches to `offset`: its name and where it starts.  The offset
just behind a file belongs to it. -/
def fileAt? (offset : Nat) : Nat → Source → Option (Bytes × Nat)
  | _, [] => none
  | base, f :: rest =>
    if base ≤ offset ∧ offset ≤ base + f.text.length then some (f.name, base)
    else fileAt? offset (base + f.text.length) rest

/-- The file, line and column of an offset.  Behind the last file they are those of the end of the whole text. -/
def position (s : Source) (offset : Nat) : Position :=
  let (name, base) := (fileAt? offset 0 s).getD ([], 0)
  let before := (s.text.take offset).drop base
  ⟨name, 1 + before.count (byte '\n'), 1 + (before.reverse.takeWhile (· != byte '\n')).length⟩

/-- A problem at an offset. -/
def problemAt (s : Source) (offset : Nat) (p : SyntaxProblem) : SyntaxError := ⟨s.position offset, p⟩

/-- Reads the source as exactly one form of a kind.  If more than blanks follow, the form is given beside the
error. -/
def readOne (s : Source) (g : Grammar) : Option Form × Option SyntaxError :=
  match g.read 0 s.text with
  | .error (offset, e) => (none, some (s.problemAt offset (.unreadable e)))
  | .ok (x, rest) =>
    let rest := SpaceSet.all.skipBlanks rest
    let offset := s.text.length - rest.length
    (some x, if rest.isEmpty then none else some (s.problemAt offset (.leftover offset)))

/-- Reads all forms of the source, up to the first error. -/
def readAll (s : Source) : List Form × Option SyntaxError :=
  let (forms, fault) := scan s.text
  (forms, fault.map fun f => s.problemAt f.offset (.unreadable f.error))

/-- Reads all forms of the source by a grammar, up to the first error. -/
def readAllBy (s : Source) (g : Grammar) : List Form × Option SyntaxError :=
  let (forms, error) := g.readMany 0 s.text
  (forms, error.map fun e => s.problemAt e.1 (.unreadable e.2))

end Source

end RegisterMachine
