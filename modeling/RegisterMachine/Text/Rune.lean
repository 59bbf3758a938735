import RegisterMachine.Text.Bytes

/-!
# Characters in byte strings

`runes s` cuts a byte string into its UTF-8 characters.  A byte that starts no valid character stands alone,
with no code, so the pieces always concatenate to `s`.

* `badRune? s`: the offset of the first byte that starts no valid character.
* `trimSpace s`: `s` without white space characters at both ends.
-/

namespace RegisterMachine

/-- A piece of a byte string: a character with its code point, or a stray byte without one. -/
structure Rune where
  code : Option Nat
  bytes : Bytes

namespace Rune

/-- A byte that is no part of a valid character. -/
def stray (a : UInt8) : Rune := ⟨none, [a]⟩

/-- Continuation bytes lie between `80` and `BF`. -/
def isTail (b : UInt8) : Bool := 0x80 ≤ b && b ≤ 0xBF

/-- The low six bits, which a continuation byte carries. -/
def payload (b : UInt8) : Nat := b.toNat % 64

/-- The bytes that may follow the first byte of a three byte character: no overlong form, no surrogate. -/
def secondOfThree (a b : UInt8) : Bool :=
  isTail b && (a != 0xE0 || 0xA0 ≤ b) && (a != 0xED || b ≤ 0x9F)

/-- The bytes that may follow the first byte of a four byte character: nothing overlong or above `10FFFF`. -/
def secondOfFour (a b : UInt8) : Bool :=
  isTail b && (a != 0xF0 || 0x90 ≤ b) && (a != 0xF4 || b ≤ 0x8F)

end Rune

open Rune in
/-- The characters of a byte string in order, stray bytes included. -/
def runes : Bytes → List Rune
  | [] => []
  | a :: rest =>
    if a < 0x80 then ⟨some a.toNat, [a]⟩ :: runes rest
    else if a < 0xC2 || 0xF4 < a then stray a :: runes rest
    else match rest with
      | [] => [stray a]
      | b :: rest₂ =>
        if a < 0xE0 then
          if isTail b then ⟨some (a.toNat % 32 * 64 + payload b), [a, b]⟩ :: runes rest₂
          else stray a :: runes (b :: rest₂)
        else match rest₂ with
          | [] => stray a :: runes [b]
          | c :: rest₃ =>
            if a < 0xF0 then
              if secondOfThree a b && isTail c then
                ⟨some ((a.toNat % 16 * 64 + payload b) * 64 + payload c), [a, b, c]⟩ :: runes rest₃
              else stray a :: runes (b :: c :: rest₃)
            else match rest₃ with
              | [] => stray a :: runes [b, c]
              | d :: rest₄ =>
                if secondOfFour a b && isTail c && isTail d then
                  ⟨some (((a.toNat % 8 * 64 + payload b) * 64 + payload c) * 64 + payload d), [a, b, c, d]⟩
                    :: runes rest₄
                else stray a :: runes (b :: c :: d :: rest₄)

/-- The offset of the first stray byte among the pieces of a text that starts at `offset`. -/
def badRuneFrom? (offset : Nat) : List Rune → Option Nat
  | [] => none
  | r :: rest => if r.code.isNone then some offset else badRuneFrom? (offset + r.bytes.length) rest

/-- The offset of the first byte that starts no valid character. -/
def badRune? (s : Bytes) : Option Nat := badRuneFrom? 0 (runes s)

/-- A byte string is valid UTF-8 when it has no stray byte. -/
def validUtf8 (s : Bytes) : Bool := (badRune? s).isNone

/-- The UTF-8 bytes of a code point; none for a surrogate or a number that is no code point. -/
def encodeRune? (code : Nat) : Option Bytes :=
  if code < 0x80 then some [code.toUInt8]
  else if code < 0x800 then some [(0xC0 + code / 64).toUInt8, (0x80 + code % 64).toUInt8]
  else if 0xD800 ≤ code && code ≤ 0xDFFF then none
  else if code < 0x10000 then
    some [(0xE0 + code / 4096).toUInt8, (0x80 + code / 64 % 64).toUInt8, (0x80 + code % 64).toUInt8]
  else if code ≤ 0x10FFFF then
    some [(0xF0 + code / 262144).toUInt8, (0x80 + code / 4096 % 64).toUInt8, (0x80 + code / 64 % 64).toUInt8,
      (0x80 + code % 64).toUInt8]
  else none

/-- The Unicode white space characters. -/
def isWhiteSpace (code : Nat) : Bool :=
  (0x09 ≤ code && code ≤ 0x0D) || code == 0x20 || code == 0x85 || code == 0xA0 || code == 0x1680 ||
    (0x2000 ≤ code && code ≤ 0x200A) || code == 0x2028 || code == 0x2029 || code == 0x202F ||
    code == 0x205F || code == 0x3000

/-- A white space character; a stray byte is none. -/
def Rune.isSpace (r : Rune) : Bool := r.code.any isWhiteSpace

/-- The text without white space at its two ends. -/
def trimSpace (s : Bytes) : Bytes :=
  ((((runes s).dropWhile Rune.isSpace).reverse.dropWhile Rune.isSpace).reverse.map Rune.bytes).flatten

end RegisterMachine
