import RegisterMachine.Text.Bytes

/-!
# Blanks

What separates data in a text: space bytes and comments, which run from a semicolon to the end of the line.

* `SpaceSet`: a set of bytes below 64, as a bit set.
* `SpaceSet.skip`, `SpaceSet.skipBlanks`: the rest of a text after spaces, or after spaces and comments.
* `isDelimiter`: the bytes that end an atom.
-/

namespace RegisterMachine

/-- A set of bytes with codes below 64; bit `c` tells whether `c` belongs to it. -/
structure SpaceSet where
  bits : UInt64

namespace SpaceSet

/-- The set of these bytes, if all of them are below 64. -/
def ofBytes? (cs : Bytes) : Option SpaceSet :=
  if cs.all (· < 64) then some ⟨cs.foldl (fun bits c => bits ||| ((1 : UInt64) <<< c.toUInt64)) 0⟩ else none

/-- Membership. -/
def contains (s : SpaceSet) (c : UInt8) : Bool := c < 64 && (s.bits >>> c.toUInt64) &&& 1 == 1

/-- The text after the spaces it starts with. -/
def skip (s : SpaceSet) (text : Bytes) : Bytes := text.dropWhile s.contains

/-- The text after the spaces and comments it starts with, from outside or from inside a comment. -/
def skipFrom (s : SpaceSet) (inComment : Bool) : Bytes → Bytes
  | [] => []
  | c :: rest =>
    if inComment && c != byte '\n' then s.skipFrom true rest
    else if s.contains c then s.skipFrom false rest
    else if c == byte ';' then s.skipFrom true rest
    else c :: rest

/-- The text after the spaces and comments it starts with. -/
def skipBlanks (s : SpaceSet) (text : Bytes) : Bytes := s.skipFrom false text

theorem skipFrom_length_le (s : SpaceSet) (inComment : Bool) (text : Bytes) :
    (s.skipFrom inComment text).length ≤ text.length := by
  induction text generalizing inComment with
  | nil => simp [skipFrom]
  | cons c rest ih =>
    unfold skipFrom
    split
    · exact Nat.le_succ_of_le (ih true)
    split
    · exact Nat.le_succ_of_le (ih false)
    split
    · exact Nat.le_succ_of_le (ih true)
    · exact Nat.le_refl _

theorem skipBlanks_length_le (s : SpaceSet) (text : Bytes) : (s.skipBlanks text).length ≤ text.length :=
  s.skipFrom_length_le false text

/-- Space, tab, carriage return, line feed, form feed and vertical tab. -/
def all : SpaceSet := ⟨0x100003E00⟩

end SpaceSet

/-- A space byte of controller text. -/
def isSpace (c : UInt8) : Bool := SpaceSet.all.contains c

/-- The bytes that end an atom: brackets, quotes, a semicolon and spaces. -/
def isDelimiter (c : UInt8) : Bool :=
  c == 0x28 || c == 0x29 || c == 0x22 || c == 0x27 || c == 0x3B || isSpace c

end RegisterMachine
