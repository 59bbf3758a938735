import Mathlib.Algebra.Order.Field.Power
import RegisterMachine.Form.Scanner

/-!
# Decimal digits and integers read back

* `digitsOn n ds`: the number that the digits `ds` behind a number `n` give.
* `digitsOn_decimal`: the digits of a number denote it.
* `number?_decimalInt`: the text of a 64 bit integer is a literal of that integer.
-/

namespace RegisterMachine

/-! ## Digit strings -/

/-- The number that results when the digits `ds` are written behind the number `n`. -/
def digitsOn (n : Nat) (ds : Bytes) : Nat := ds.foldl (fun n c => n * 10 + (c.toNat - 0x30)) n

/-- All bytes are decimal digits. -/
def AllDigits (ds : Bytes) : Prop := ∀ c ∈ ds, isDigit c = true

theorem isDigit_iff {c : UInt8} : isDigit c = true ↔ 0x30 ≤ c.toNat ∧ c.toNat ≤ 0x39 := by
  simp [isDigit, UInt8.le_iff_toNat_le]

theorem digitsOn_append (n : Nat) (ds es : Bytes) : digitsOn n (ds ++ es) = digitsOn (digitsOn n ds) es := by
  simp [digitsOn]

theorem digitsOn_eq (n : Nat) (ds : Bytes) : digitsOn n ds = n * 10 ^ ds.length + digitsOn 0 ds := by
  induction ds generalizing n with
  | nil => simp [digitsOn]
  | cons c ds ih =>
    have h : ∀ k, digitsOn k (c :: ds) = digitsOn (k * 10 + (c.toNat - 0x30)) ds := fun _ => rfl
    rw [h n, h 0, ih, ih (0 * 10 + _), List.length_cons, Nat.pow_succ, Nat.zero_mul, Nat.zero_add, Nat.add_mul,
      Nat.mul_assoc, Nat.mul_comm 10, Nat.add_assoc]

theorem digitsOn_zeros (n k : Nat) : digitsOn n (List.replicate k (byte '0')) = n * 10 ^ k := by
  induction k generalizing n with
  | zero => simp [digitsOn]
  | succ k ih =>
    have h : digitsOn n (List.replicate (k + 1) (byte '0')) = digitsOn (n * 10) (List.replicate k (byte '0')) :=
      rfl
    rw [h, ih, Nat.pow_succ, Nat.mul_assoc, Nat.mul_comm 10]

/-! ## The digits of a number -/

theorem toNat_byte {c : Char} (h : c.isDigit = true) : (byte c).toNat = c.toNat ∧ isDigit (byte c) = true := by
  have hc : 0x30 ≤ c.toNat ∧ c.toNat ≤ 0x39 := by
    simpa [Char.isDigit, UInt32.le_iff_toNat_le] using h
  have hb : (byte c).toNat = c.toNat := by
    rw [byte, Nat.toUInt8, UInt8.toNat_ofNat']
    omega
  exact ⟨hb, isDigit_iff.mpr (by omega)⟩

theorem isDigit_of_mem_toDigits {n : Nat} {c : Char} (h : c ∈ Nat.toDigits 10 n) : c.isDigit = true :=
  Nat.isDigit_of_mem_toDigits (by decide) (by decide) h

theorem allDigits_decimal (n : Nat) : AllDigits (decimal n) := by
  intro b hb
  obtain ⟨c, hc, rfl⟩ := List.mem_map.mp hb
  exact (toNat_byte (isDigit_of_mem_toDigits hc)).2

theorem digitsOn_map_byte (n : Nat) (cs : List Char) (h : ∀ c ∈ cs, c.isDigit = true) :
    digitsOn n (cs.map byte) = Nat.ofDigitChars 10 cs n := by
  induction cs generalizing n with
  | nil => rfl
  | cons c cs ih =>
    obtain ⟨hc, hcs⟩ := List.forall_mem_cons.mp h
    have hs : digitsOn n ((c :: cs).map byte) = digitsOn (n * 10 + ((byte c).toNat - 0x30)) (cs.map byte) := rfl
    rw [hs, ih _ hcs, (toNat_byte hc).1, Nat.ofDigitChars_cons, Nat.mul_comm]
    rfl

/-- The digits of a number denote it. -/
theorem digitsOn_decimal (n : Nat) : digitsOn 0 (decimal n) = n := by
  rw [decimal, digitsOn_map_byte 0 _ (fun _ => isDigit_of_mem_toDigits), Nat.ofDigitChars_ten_toDigits]

theorem decimal_ne_nil (n : Nat) : decimal n ≠ [] := by
  simp [decimal, Nat.toDigits_ne_nil]

/-! ## Integer literals -/

namespace Literal

theorem digitValue?_of_isDigit {c : UInt8} (h : isDigit c = true) :
    digitValue? c = some (c.toNat - 0x30) := if_pos h

theorem digitsFrom?_append {ds : Bytes} (h : AllDigits ds) (k : Nat) (s : Bytes) :
    digitsFrom? 10 k (ds ++ s) = digitsFrom? 10 (digitsOn k ds) s := by
  induction ds generalizing k with
  | nil => rfl
  | cons c ds ih =>
    obtain ⟨hc, hds⟩ := List.forall_mem_cons.mp h
    have := isDigit_iff.mp hc
    rw [List.cons_append, digitsFrom?, digitValue?_of_isDigit hc]
    dsimp only
    rw [if_pos (by omega), ih hds]
    rfl

theorem digitsFrom?_of_digits {ds : Bytes} (h : AllDigits ds) (k : Nat) :
    digitsFrom? 10 k ds = some (digitsOn k ds) := by
  have := digitsFrom?_append h k []
  rwa [List.append_nil] at this

/-- Digits only start a literal without a sign. -/
theorem splitSign_of_isDigit {c : UInt8} {s : Bytes} (h : isDigit c = true) :
    splitSign (c :: s) = (false, c :: s) := by
  have hm : (c == byte '-') = false := by
    rw [beq_eq_false_iff_ne]
    rintro rfl
    simp [isDigit, byte] at h
  have hp : (c == byte '+') = false := by
    rw [beq_eq_false_iff_ne]
    rintro rfl
    simp [isDigit, byte] at h
  simp [splitSign, hm, hp]

theorem splitSign_digits {ds : Bytes} (h : AllDigits ds) : splitSign ds = (false, ds) := by
  cases ds with
  | nil => rfl
  | cons c ds => exact splitSign_of_isDigit (h c List.mem_cons_self)

theorem decimalInt?_decimal {n : Nat} (h : n < 0x8000000000000000) :
    decimalInt? (decimal n) = some (Int64.ofInt n) := by
  rw [decimalInt?, splitSign_digits (allDigits_decimal n)]
  simp only [List.isEmpty_iff, decimal_ne_nil, if_false, digitsFrom?_of_digits (allDigits_decimal n),
    digitsOn_decimal]
  show signed? false n = _
  rw [signed?, if_neg (by simp), if_pos h]

theorem decimalInt?_minus {n : Nat} (h : n ≤ 0x8000000000000000) :
    decimalInt? (byte '-' :: decimal n) = some (Int64.ofInt (-(n : Int))) := by
  have hs : splitSign (byte '-' :: decimal n) = (true, decimal n) := rfl
  rw [decimalInt?, hs]
  simp only [List.isEmpty_iff, decimal_ne_nil, if_false, digitsFrom?_of_digits (allDigits_decimal n),
    digitsOn_decimal]
  show signed? true n = _
  rw [signed?, if_pos rfl, if_pos h]

theorem decimalInt?_decimalInt (n : Int64) : decimalInt? (decimalInt n.toInt) = some n := by
  have hlt := n.toInt_lt
  have hle := n.le_toInt
  cases hn : n.toInt with
  | ofNat k =>
    have hk : k < 0x8000000000000000 := by rw [hn, Int.ofNat_eq_natCast] at hlt; omega
    rw [decimalInt, decimalInt?_decimal hk, ← Int.ofNat_eq_natCast, ← hn, Int64.ofInt_toInt]
  | negSucc k =>
    have hk : k + 1 ≤ 0x8000000000000000 := by rw [hn, Int.negSucc_eq] at hle; omega
    have he : -((k + 1 : Nat) : Int) = Int.negSucc k := rfl
    rw [decimalInt, decimalInt?_minus hk, he, ← hn, Int64.ofInt_toInt]

end Literal

theorem any_isDigit_decimal (n : Nat) : (decimal n).any isDigit = true := by
  cases h : decimal n with
  | nil => exact absurd h (decimal_ne_nil n)
  | cons c ds =>
    have := allDigits_decimal n c (by simp [h])
    simp [this]

theorem any_isDigit_decimalInt (n : Int) : (decimalInt n).any isDigit = true := by
  cases n with
  | ofNat k => exact any_isDigit_decimal k
  | negSucc k =>
    rw [decimalInt, List.any_cons, any_isDigit_decimal, Bool.or_true]

/-- The text of an integer is a literal of it. -/
theorem number?_decimalInt (span : Span) (n : Int64) : number? span (decimalInt n.toInt) = some (.int span n) := by
  rw [number?, any_isDigit_decimalInt, Literal.decimalInt?_decimalInt]
  rfl

end RegisterMachine
