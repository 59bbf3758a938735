import RegisterMachine.Text.Rune
import RegisterMachine.Text.Printable

/-!
# Quoted text

`quoted s` writes arbitrary bytes between double quotes, on one line and without unprintable characters.
-/

namespace RegisterMachine

/-- The one letter escapes, by code point. -/
def letterEscape? : Nat → Option Char
  | 0x07 => some 'a'
  | 0x08 => some 'b'
  | 0x09 => some 't'
  | 0x0A => some 'n'
  | 0x0B => some 'v'
  | 0x0C => some 'f'
  | 0x0D => some 'r'
  | _ => none

/-- A backslash, which starts every escape. -/
def backslash : UInt8 := 0x5C

/-- How one piece stands in quoted text.  A quote and a backslash are escaped, a printable character stands for
itself, and anything else is written by its letter, its byte or its code. -/
def Rune.quoted (r : Rune) : Bytes :=
  match r.code with
  | none => r.bytes.flatMap fun b => backslash :: byte 'x' :: hex 2 b.toNat
  | some code =>
    if code == 0x22 || code == 0x5C then backslash :: r.bytes
    else if isPrintable code then r.bytes
    else match letterEscape? code with
      | some c => [backslash, byte c]
      | none =>
        if code < 0x20 || code == 0x7F then backslash :: byte 'x' :: hex 2 code
        else if code < 0x10000 then backslash :: byte 'u' :: hex 4 code
        else backslash :: byte 'U' :: hex 8 code

/-- The text between double quotes, with escapes. -/
def quoted (s : Bytes) : Bytes := 0x22 :: (runes s).flatMap Rune.quoted ++ [0x22]

end RegisterMachine
