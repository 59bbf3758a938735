import RegisterMachine.Number.FloatText
import RegisterMachine.Proofs.DecimalText

/-!
# Decimal notation

A numeral is a number in decimal notation: a sign, digits, perhaps a point with digits behind it, perhaps an
exponent.  It is what the texts of floating point numbers and the literals have in common.

* `Numeral.mantissa`, `Numeral.place`: a numeral stands for `mantissa * 10 ^ place`.
* `Numeral.finiteFloat?_text`: the text of a numeral is a literal of the double nearest to that.
* `Numeral.number?_text`: no integer is read instead, provided that it shows a point or an exponent.
-/

namespace RegisterMachine

/-- A number in decimal notation. -/
structure Numeral where
  negative : Bool
  whole : Bytes
  fraction : Option Bytes
  exponent : Option Int

namespace Numeral

/-- The text behind the sign. -/
def body (n : Numeral) : Bytes :=
  n.whole ++ (n.fraction.elim [] (byte '.' :: ·) ++ n.exponent.elim [] exponentText)

/-- The text of a numeral. -/
def text (n : Numeral) : Bytes := (if n.negative then utf8 "-" else []) ++ n.body

/-- All digits of a numeral as one number. -/
def mantissa (n : Numeral) : Nat := digitsOn 0 (n.whole ++ n.fraction.getD [])

/-- The power of ten that the last digit counts. -/
def place (n : Numeral) : Int := n.exponent.getD 0 - (n.fraction.getD []).length

/-- There are digits before the point, only digits around it, and the exponent has at most four of them. -/
structure Proper (n : Numeral) : Prop where
  whole_ne : n.whole ≠ []
  whole_digits : AllDigits n.whole
  fraction_digits : AllDigits (n.fraction.getD [])
  exponent_lt : (n.exponent.getD 0).natAbs < 10000

/-! ## The bytes of a numeral -/

/-- The bytes that numerals are written with. -/
def Mark (c : UInt8) : Prop :=
  isDigit c = true ∨ c = byte '-' ∨ c = byte '+' ∨ c = byte '.' ∨ c = byte 'e'

theorem digit_cases {c : UInt8} (h : isDigit c = true) :
    c = 0x30 ∨ c = 0x31 ∨ c = 0x32 ∨ c = 0x33 ∨ c = 0x34 ∨ c = 0x35 ∨ c = 0x36 ∨ c = 0x37 ∨ c = 0x38 ∨
    c = 0x39 := by
  have hc := isDigit_iff.mp h
  simp only [← UInt8.toNat_inj]
  show c.toNat = 48 ∨ c.toNat = 49 ∨ c.toNat = 50 ∨ c.toNat = 51 ∨ c.toNat = 52 ∨ c.toNat = 53 ∨ c.toNat = 54 ∨
    c.toNat = 55 ∨ c.toNat = 56 ∨ c.toNat = 57
  omega

/-- No byte of a numeral ends an atom, separates digits or marks a base. -/
theorem Mark.plain {c : UInt8} (h : Mark c) : isDelimiter c = false ∧ c ≠ byte '_' ∧
    (lowerByte c == byte 'b') = false ∧ (lowerByte c == byte 'o') = false ∧ (lowerByte c == byte 'x') = false := by
  rcases h with h | rfl | rfl | rfl | rfl
  · rcases digit_cases h with rfl | rfl | rfl | rfl | rfl | rfl | rfl | rfl | rfl | rfl <;> decide
  all_goals decide

theorem mark_of_allDigits {ds : Bytes} (h : AllDigits ds) : ∀ c ∈ ds, Mark c := fun c hc => .inl (h c hc)

/-- The digits of an exponent, at least two of them. -/
def exponentDigits (e : Int) : Bytes :=
  List.replicate (2 - (decimal e.natAbs).length) (byte '0') ++ decimal e.natAbs

theorem exponentText_eq (e : Int) :
    exponentText e = byte 'e' :: (if e < 0 then byte '-' else byte '+') :: exponentDigits e := by
  have hl : 0 < (decimal e.natAbs).length := List.length_pos_iff.mpr (decimal_ne_nil _)
  have hz : (if (decimal e.natAbs).length < 2 then utf8 "0" else utf8 "") =
      List.replicate (2 - (decimal e.natAbs).length) (byte '0') := by
    split
    · rw [show 2 - (decimal e.natAbs).length = 1 by omega]
      rfl
    · rw [show 2 - (decimal e.natAbs).length = 0 by omega]
      rfl
  unfold exponentText exponentDigits
  dsimp only
  rw [hz]
  split <;> simp [concat] <;> rfl

theorem allDigits_exponentDigits (e : Int) : AllDigits (exponentDigits e) := by
  intro c hc
  rcases List.mem_append.mp hc with h | h
  · rw [(List.mem_replicate.mp h).2]
    rfl
  · exact allDigits_decimal _ c h

theorem digitsOn_exponentDigits (e : Int) : digitsOn 0 (exponentDigits e) = e.natAbs := by
  rw [exponentDigits, digitsOn_append, digitsOn_zeros, Nat.zero_mul, digitsOn_decimal]

theorem mark_exponentText (e : Int) : ∀ c ∈ exponentText e, Mark c := by
  rw [exponentText_eq]
  intro c hc
  rcases List.mem_cons.mp hc with rfl | hc
  · exact .inr (.inr (.inr (.inr rfl)))
  rcases List.mem_cons.mp hc with rfl | hc
  · split
    · exact .inr (.inl rfl)
    · exact .inr (.inr (.inl rfl))
  · exact mark_of_allDigits (allDigits_exponentDigits e) c hc

theorem Proper.mark_body {n : Numeral} (h : n.Proper) : ∀ c ∈ n.body, Mark c := by
  intro c hc
  rcases List.mem_append.mp hc with hc | hc
  · exact mark_of_allDigits h.whole_digits c hc
  rcases List.mem_append.mp hc with hc | hc
  · have hf := h.fraction_digits
    cases hn : n.fraction with
    | none => rw [hn] at hc; simp at hc
    | some f =>
      rw [hn] at hc hf
      rcases List.mem_cons.mp hc with rfl | hc
      · exact .inr (.inr (.inr (.inl rfl)))
      · exact mark_of_allDigits hf c hc
  · cases hn : n.exponent with
    | none => rw [hn] at hc; simp at hc
    | some e =>
      rw [hn] at hc
      exact mark_exponentText e c hc

theorem Proper.mark_text {n : Numeral} (h : n.Proper) : ∀ c ∈ n.text, Mark c := by
  intro c hc
  rcases List.mem_append.mp hc with hc | hc
  · split at hc
    · rw [show utf8 "-" = [byte '-'] from rfl, List.mem_singleton] at hc
      exact .inr (.inl hc)
    · simp at hc
  · exact h.mark_body c hc

end Numeral

namespace Literal

/-! ## Reading digits -/

/-- The mantissa after some digits. -/
def Mantissa.pushes (m : Mantissa) (ds : Bytes) : Mantissa :=
  ⟨digitsOn m.value ds, if m.point then m.places + ds.length else m.places, m.anyDigit || !ds.isEmpty, m.point⟩

theorem Mantissa.scan_digits {ds : Bytes} (h : AllDigits ds) (m : Mantissa) (rest : Bytes) :
    Mantissa.scan 10 m (ds ++ rest) = Mantissa.scan 10 (m.pushes ds) rest := by
  induction ds generalizing m with
  | nil => simp [pushes, digitsOn]
  | cons c ds ih =>
    obtain ⟨hc, hds⟩ := List.forall_mem_cons.mp h
    have h1 : (c == byte '_') = false ∧ (c == byte '.') = false := by
      rcases Numeral.digit_cases hc with rfl | rfl | rfl | rfl | rfl | rfl | rfl | rfl | rfl | rfl <;> decide
    have hlt : c.toNat - 0x30 < 10 := by have := isDigit_iff.mp hc; omega
    rw [List.cons_append, Mantissa.scan, h1.1, h1.2, digitValue?_of_isDigit hc]
    dsimp only
    rw [if_neg (by simp), if_neg (by simp), if_pos hlt, ih hds]
    congr 1
    cases hp : m.point <;> simp [pushes, push, digitsOn, hp, Nat.add_assoc, Nat.add_comm 1]

/-- The digits of an exponent below ten thousand are read exactly. -/
theorem exponentDigits_of_digits {ds : Bytes} (h : AllDigits ds) {n : Nat} (hn : digitsOn n ds < 10000) :
    exponentDigits n ds = (digitsOn n ds, []) := by
  induction ds generalizing n with
  | nil => rfl
  | cons c ds ih =>
    obtain ⟨hc, hds⟩ := List.forall_mem_cons.mp h
    have h1 : (c == byte '_') = false := by
      rcases Numeral.digit_cases hc with rfl | rfl | rfl | rfl | rfl | rfl | rfl | rfl | rfl | rfl <;> decide
    have hs : digitsOn n (c :: ds) = digitsOn (n * 10 + (c.toNat - 0x30)) ds := rfl
    have hle : n < 10000 := by
      rw [digitsOn_eq] at hn
      have : n ≤ n * 10 ^ (c :: ds).length := Nat.le_mul_of_pos_right n (Nat.pow_pos (by decide))
      omega
    rw [hs] at hn ⊢
    rw [exponentDigits, h1, if_neg (by simp), if_pos hc, if_pos hle]
    exact ih hds hn

theorem exponent?_exponentText {e : Int} (h : e.natAbs < 10000) :
    exponent? ((if e < 0 then byte '-' else byte '+') :: Numeral.exponentDigits e) = some e := by
  have hd := Numeral.allDigits_exponentDigits e
  have hv := Numeral.digitsOn_exponentDigits e
  have hne : Numeral.exponentDigits e ≠ [] := by simp [Numeral.exponentDigits, decimal_ne_nil]
  have hs : splitSign ((if e < 0 then byte '-' else byte '+') :: Numeral.exponentDigits e) =
      (decide (e < 0), Numeral.exponentDigits e) := by
    split
    · next he => simp [splitSign, he]
    · next he => simp [splitSign, he]; decide
  unfold exponent?
  rw [hs]
  have hr := exponentDigits_of_digits hd (n := 0) (by omega)
  dsimp only
  cases hx : Numeral.exponentDigits e with
  | nil => exact absurd hx hne
  | cons c ds =>
    rw [hx] at hd hv hr
    have hc := hd c List.mem_cons_self
    have hsign : (if decide (e < 0) = true then -(e.natAbs : Int) else e.natAbs) = e := by
      simp only [decide_eq_true_eq]
      split <;> omega
    simp only [hc, hr, hv, hsign]
    rfl

/-! ## Literals without a base mark -/

theorem finiteFloat?_decimal {s body rest : Bytes} {negative : Bool} {m : Mantissa} {e : Int}
    (hs : splitSign s = (negative, body)) (hb : baseMark? body = none) (hm : Mantissa.scan 10 {} body = (m, rest))
    (ha : m.anyDigit = true) (hu : byte '_' ∈ s → underscoresPlaced s = true)
    (he : exponentPart? false rest = some e) : finiteFloat? s = m.float? negative false e := by
  have hx : hexDigits body = (false, body) := by rw [hexDigits, hb]
  have hplaced : ¬ (byte '_' ∈ s ∧ underscoresPlaced s = false) := fun h => by simp [hu h.1] at h
  simp [finiteFloat?, hs, hx, hm, ha, hplaced, he]

theorem baseMark?_of_marks {s : Bytes} (h : ∀ c ∈ s, Numeral.Mark c) : baseMark? s = none := by
  unfold baseMark?
  split
  · next z c rest =>
    obtain ⟨-, -, hb, ho, hx⟩ := (h c (by simp)).plain
    simp [hb, ho, hx]
  · rfl

end Literal

namespace Numeral

open Literal

variable {n : Numeral}

/-! ## The text of a numeral as a literal -/

theorem splitSign_text (h : n.Proper) : splitSign n.text = (n.negative, n.body) := by
  unfold text
  cases hn : n.negative with
  | true => rfl
  | false =>
    cases hw : n.whole with
    | nil => exact absurd hw h.whole_ne
    | cons c ds =>
      have hc := h.whole_digits c (by simp [hw])
      have hb : n.body = c :: (ds ++ (n.fraction.elim [] (byte '.' :: ·) ++ n.exponent.elim [] exponentText)) := by
        rw [body, hw, List.cons_append]
      rw [hb]
      exact splitSign_of_isDigit hc

/-- Reading stops at the mark of the exponent. -/
theorem scan_exponentText (m : Mantissa) (e : Option Int) :
    Mantissa.scan 10 m (e.elim [] exponentText) = (m, e.elim [] exponentText) := by
  cases e with
  | none => rfl
  | some e =>
    rw [Option.elim_some, exponentText_eq]
    rfl

theorem scan_body (h : n.Proper) :
    Mantissa.scan 10 {} n.body =
      (⟨n.mantissa, (n.fraction.getD []).length, true, n.fraction.isSome⟩, n.exponent.elim [] exponentText) := by
  have hne : n.whole.isEmpty = false := by simpa using h.whole_ne
  have hf := h.fraction_digits
  rw [body, Mantissa.scan_digits h.whole_digits, mantissa]
  cases hn : n.fraction with
  | none =>
    rw [Option.elim_none, List.nil_append, scan_exponentText]
    simp [Mantissa.pushes, hne]
  | some f =>
    rw [hn, Option.getD_some] at hf
    have hp : ∀ m : Mantissa, m.point = false → ∀ s,
        Mantissa.scan 10 m (byte '.' :: s) = Mantissa.scan 10 { m with point := true } s := by
      intro m hm s
      rw [Mantissa.scan, if_neg (by decide), if_pos (by decide), if_neg (by simp [hm])]
    rw [Option.elim_some, List.cons_append, hp _ rfl, Mantissa.scan_digits hf, scan_exponentText]
    simp [Mantissa.pushes, digitsOn_append, hne]

theorem finiteFloat?_text (h : n.Proper) :
    finiteFloat? n.text = if n.mantissa = 0 then some (Double.ofMagnitude n.negative 0)
      else Double.ofRatio? n.negative (power n.mantissa 10 n.place).1 (power n.mantissa 10 n.place).2 := by
  have he : exponentPart? false (n.exponent.elim [] exponentText) = some (n.exponent.getD 0) := by
    have hlt := h.exponent_lt
    cases hn : n.exponent with
    | none => rfl
    | some e =>
      rw [hn] at hlt
      rw [Option.elim_some, exponentText_eq]
      exact exponent?_exponentText hlt
  rw [finiteFloat?_decimal (splitSign_text h) (baseMark?_of_marks h.mark_body) (scan_body h) rfl
    (fun hu => absurd rfl (h.mark_text _ hu).plain.2.1) he]
  simp [Mantissa.float?, place]

/-- A numeral with a point or an exponent is no integer. -/
theorem decimalInt?_text (h : n.Proper) (hf : n.fraction.isSome = true ∨ n.exponent.isSome = true) :
    decimalInt? n.text = none := by
  have hd : ∀ k,
      digitsFrom? 10 k (n.fraction.elim [] (byte '.' :: ·) ++ n.exponent.elim [] exponentText) = none := by
    intro k
    cases hn : n.fraction with
    | some f => rfl
    | none =>
      cases he : n.exponent with
      | some e => rw [Option.elim_none, List.nil_append, Option.elim_some, exponentText_eq]; rfl
      | none => simp [hn, he] at hf
  rw [decimalInt?, splitSign_text h]
  dsimp only
  split
  · rfl
  · rw [body, digitsFrom?_append h.whole_digits, hd]
    rfl

theorem any_isDigit_text (h : n.Proper) : n.text.any isDigit = true := by
  cases hw : n.whole with
  | nil => exact absurd hw h.whole_ne
  | cons c ds =>
    have hc := h.whole_digits c (by simp [hw])
    exact List.any_eq_true.mpr ⟨c, by simp [text, body, hw], hc⟩

/-- **The text of a numeral that shows a point or an exponent is a literal of the nearest double.** -/
theorem number?_text (h : n.Proper) (hf : n.fraction.isSome = true ∨ n.exponent.isSome = true) (span : Span) :
    number? span n.text = (if n.mantissa = 0 then some (Double.ofMagnitude n.negative 0)
      else Double.ofRatio? n.negative (power n.mantissa 10 n.place).1 (power n.mantissa 10 n.place).2).map
        (.float span) := by
  rw [number?, any_isDigit_text h, decimalInt?_text h hf, splitSign_text h]
  dsimp only
  rw [baseMark?_of_marks h.mark_body, finiteFloat?_text h]
  rfl

end Numeral

end RegisterMachine
