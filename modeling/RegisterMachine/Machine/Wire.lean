import RegisterMachine.Text.Bytes

/-!
# Wire encoding

A self-delimiting binary form of numbers, short strings, maps and unbounded arrays.  An item starts with a tag in
the upper three bits of its first byte; the lower five give a number below 24, or tell that it follows in one, two,
four or eight bytes, most significant first.
-/

namespace RegisterMachine.Wire

/-- The lowest `width` bytes of `n`, most significant first. -/
def bigEndian : Nat → Nat → Bytes
  | 0, _ => []
  | width + 1, n => bigEndian width (n / 256) ++ [(n % 256).toUInt8]

/-- A tag with a number. -/
def tagged (tag : UInt8) (n : Nat) : Bytes :=
  if n < 24 then [tag + n.toUInt8]
  else if n < 0x100 then (tag + 24) :: bigEndian 1 n
  else if n < 0x10000 then (tag + 25) :: bigEndian 2 n
  else if n < 0x100000000 then (tag + 26) :: bigEndian 4 n
  else (tag + 27) :: bigEndian 8 n

/-- A natural number. -/
def number (n : Nat) : Bytes := tagged 0x00 n

/-- A string with its length before it. -/
def string (s : Bytes) : Bytes := tagged 0x60 s.length ++ s

/-- The start of a map with `n` entries. -/
def mapOf (n : Nat) : Bytes := tagged 0xA0 n

/-- Nothing at all. -/
def nothing : Bytes := [0xF6]

/-- The start of an array whose length is not said beforehand. -/
def openArray : Bytes := [0x9F]

/-- The end of such an array. -/
def closeArray : Bytes := [0xFF]

end RegisterMachine.Wire
