/-!
# Byte strings

Text is a list of bytes; it need not be valid UTF-8, and offsets, columns and lengths count bytes.

* `utf8 s`: the bytes of a string literal, the form in which fixed words and messages are written.
* `decimal`, `decimalInt`: the usual decimal digits.
* `withContext c t`: the text `c: t`, or `t` alone when there is no context.
* `sortBytes`: ascending order, byte by byte.
-/

namespace RegisterMachine

/-- Text of any kind, not necessarily valid UTF-8. -/
abbrev Bytes := List UInt8

/-- The UTF-8 bytes of a string. -/
def utf8 (s : String) : Bytes := s.toUTF8.data.toList

instance : Coe String Bytes := ⟨utf8⟩

/-- The pieces of a message, one after the other. -/
def concat (parts : List Bytes) : Bytes := parts.flatten

/-- The byte of an ASCII character. -/
def byte (c : Char) : UInt8 := c.toNat.toUInt8

/-- The digit characters of `n` in base ten. -/
def decimal (n : Nat) : Bytes := (Nat.toDigits 10 n).map byte

/-- Decimal digits with a leading minus for a negative number. -/
def decimalInt : Int → Bytes
  | .ofNat n => decimal n
  | .negSucc n => byte '-' :: decimal (n + 1)

/-- An error text inside the context it arose in; an empty context is left out. -/
def withContext (context text : Bytes) : Bytes :=
  if context.isEmpty then text else context ++ utf8 ": " ++ text

/-- The pieces with `separator` between neighbours. -/
def join (separator : Bytes) : List Bytes → Bytes
  | [] => []
  | [x] => x
  | x :: y :: rest => x ++ separator ++ join separator (y :: rest)

/-- An ASCII decimal digit. -/
def isDigit (c : UInt8) : Bool := 0x30 ≤ c && c ≤ 0x39

/-- ASCII letters become small letters; every other byte stays. -/
def lowerByte (c : UInt8) : UInt8 := if 0x41 ≤ c && c ≤ 0x5A then c + 0x20 else c

/-- ASCII letters become small letters. -/
def lower (s : Bytes) : Bytes := s.map lowerByte

/-- Byte by byte order, a proper beginning first. -/
def bytesLe : Bytes → Bytes → Bool
  | [], _ => true
  | _ :: _, [] => false
  | a :: s, b :: t => a < b || (a == b && bytesLe s t)

/-- Ascending order; equal texts stay in their order. -/
def sortBytes (xs : List Bytes) : List Bytes := xs.mergeSort bytesLe

/-- The pieces between the bytes `separator`; there is always at least one. -/
def splitOn (separator : UInt8) : Bytes → List Bytes
  | [] => [[]]
  | c :: rest =>
    match splitOn separator rest with
    | [] => [[c]]
    | piece :: pieces => if c == separator then [] :: piece :: pieces else (c :: piece) :: pieces

/-- The text before and after the first `separator`, if there is one. -/
def cut? (separator : UInt8) : Bytes → Option (Bytes × Bytes)
  | [] => none
  | c :: rest =>
    if c == separator then some ([], rest)
    else (cut? separator rest).map fun p => (c :: p.1, p.2)

/-- The text after a byte that must come next. -/
def skipByte? (c : UInt8) : Bytes → Option Bytes
  | d :: rest => if c == d then some rest else none
  | [] => none

/-- A lower case hexadecimal digit. -/
def hexDigit (n : Nat) : UInt8 := if n < 10 then (0x30 + n).toUInt8 else (0x57 + n).toUInt8

/-- The lowest `width` hexadecimal digits of `n`, most significant first. -/
def hex : Nat → Nat → Bytes
  | 0, _ => []
  | width + 1, n => hex width (n / 16) ++ [hexDigit (n % 16)]

end RegisterMachine
