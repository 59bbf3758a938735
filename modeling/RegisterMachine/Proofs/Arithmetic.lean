import Mathlib
import RegisterMachine.Proofs.StandardOperations

/-!
# Arithmetic compared with exact integers

* `Value.integer?`, `Value.isFloat`, `Value.isNumber`: the arguments that count as numbers.
* `Arithmetic.FirstOther`: the first argument that is none.
* `Number.ofValues_of_integers`, `Number.ofValues_of_numbers`, `Number.ofValues_of_other`: what arguments are read
  as.
* `Arithmetic.foldl_modEq`: a fold that wraps around at every step is exact modulo `2 ^ 64`.
* `Arithmetic.Fold`, `Arithmetic.fold_exact`: sums, differences and products.
* `Arithmetic.Overflows`, `Arithmetic.division_exact`: quotients and remainders.
-/

namespace RegisterMachine

/-! ## Arguments -/

namespace Value

/-- The integer that a value is, in either representation. -/
def integer? : Value → Option Int64
  | int n | raw n => some n
  | _ => none

/-- The value is a float. -/
def isFloat : Value → Bool
  | float _ => true
  | _ => false

/-- The value counts as a number. -/
def isNumber (v : Value) : Bool := v.integer?.isSome || v.isFloat

end Value

/-- The arguments are these integers, in either representation. -/
def Arithmetic.Integers (args : List Value) (ns : List Int64) : Prop :=
  List.Forall₂ (fun v n => v.integer? = some n) args ns

/-- The first argument that is no number stands at position `i`. -/
structure Arithmetic.FirstOther (args : List Value) (i : Nat) (v : Value) : Prop where
  here : args[i]? = some v
  other : v.isNumber = false
  before : ∀ j < i, ∀ u, args[j]? = some u → u.isNumber = true

theorem Arithmetic.exists_firstOther {args : List Value} (h : ∃ v ∈ args, v.isNumber = false) :
    ∃ i v, FirstOther args i v := by
  induction args with
  | nil =>
    obtain ⟨v, hv, -⟩ := h
    exact absurd hv List.not_mem_nil
  | cons u rest ih =>
    cases hu : u.isNumber with
    | false => exact ⟨0, u, rfl, hu, fun j hj => absurd hj (Nat.not_lt_zero j)⟩
    | true =>
      obtain ⟨v, hv, hother⟩ := h
      have hrest : v ∈ rest := by
        rcases List.mem_cons.mp hv with rfl | hv
        · rw [hu] at hother
          cases hother
        · exact hv
      obtain ⟨i, w, hw⟩ := ih ⟨v, hrest, hother⟩
      refine ⟨i + 1, w, hw.here, hw.other, fun j hj x hx => ?_⟩
      cases j with
      | zero => rwa [← Option.some.inj hx]
      | succ j => exact hw.before j (Nat.lt_of_succ_lt_succ hj) x hx

namespace Number

/-- The number is a float. -/
def isFloat : Number → Bool
  | int _ => false
  | float _ => true

theorem isFloat_value (n : Number) : n.value.isFloat = n.isFloat := by cases n <;> rfl

variable {v : Value} {n : Number} {ns : List Number} {rest args : List Value}

theorem ofValue_of_integer {k : Int64} (h : v.integer? = some k) (position : Nat) :
    ofValue position v = .ok (int k) := by
  cases v with
  | int m => exact congrArg (Except.ok ∘ int) (Option.some.inj h)
  | raw m => exact congrArg (Except.ok ∘ int) (Option.some.inj h)
  | _ => cases h

theorem ofValue_of_number (h : v.isNumber = true) (position : Nat) :
    ∃ n, ofValue position v = .ok n ∧ n.isFloat = v.isFloat := by
  cases v with
  | int m => exact ⟨int m, rfl, rfl⟩
  | raw m => exact ⟨int m, rfl, rfl⟩
  | float x => exact ⟨float x, rfl, rfl⟩
  | _ => cases h

theorem ofValue_of_other (h : v.isNumber = false) (position : Nat) :
    ofValue position v = .error (.notNumber position v.kindName) := by
  cases v with
  | int m => cases h
  | raw m => cases h
  | float x => cases h
  | _ => rfl

theorem ofValues_cons {position : Nat} (hn : ofValue position v = .ok n) :
    ofValues position (v :: rest) = (ofValues (position + 1) rest).map (n :: ·) := by
  rw [ofValues, hn]
  rfl

theorem ofValues_of_integers {ks : List Int64} (h : Arithmetic.Integers args ks) (position : Nat) :
    ofValues position args = .ok (ks.map int) := by
  induction h generalizing position with
  | nil => rfl
  | cons hv _ ih =>
    rw [ofValues_cons (ofValue_of_integer hv position), ih]
    rfl

theorem ofValues_of_numbers (h : ∀ v ∈ args, v.isNumber = true) (position : Nat) :
    ∃ ns, ofValues position args = .ok ns ∧ ns.map isFloat = args.map Value.isFloat := by
  induction args generalizing position with
  | nil => exact ⟨[], rfl, rfl⟩
  | cons v rest ih =>
    obtain ⟨n, hn, hf⟩ := ofValue_of_number (h v List.mem_cons_self) position
    obtain ⟨ns, hns, hfs⟩ := ih (fun u hu => h u (List.mem_cons_of_mem v hu)) (position + 1)
    refine ⟨n :: ns, ?_, ?_⟩
    · rw [ofValues_cons hn, hns]
      rfl
    · rw [List.map_cons, List.map_cons, hf, hfs]

/-- The first argument that is no number is the error. -/
theorem ofValues_of_other {i : Nat} (h : Arithmetic.FirstOther args i v) (position : Nat) :
    ofValues position args = .error (.notNumber (position + i) v.kindName) := by
  induction args generalizing i position with
  | nil => cases h.here
  | cons u rest ih =>
    cases i with
    | zero =>
      obtain rfl := Option.some.inj h.here
      rw [ofValues, ofValue_of_other h.other]
      rfl
    | succ i =>
      obtain ⟨n, hn, -⟩ := ofValue_of_number (h.before 0 (Nat.zero_lt_succ i) u rfl) position
      have hrest : Arithmetic.FirstOther rest i v :=
        ⟨h.here, h.other, fun j hj x hx => h.before (j + 1) (Nat.succ_lt_succ hj) x hx⟩
      rw [ofValues_cons hn, ih hrest, Nat.add_right_comm, Nat.add_assoc]
      rfl

end Number

namespace Arithmetic

variable {args : List Value} {ns : List Int64}

/-! ## Folds -/

section Combine

variable (onInts : Int64 → Int64 → Int64) (onFloats : Float → Float → Float)

theorem foldl_combine_integers (a : Int64) (ns : List Int64) :
    (ns.map Number.int).foldl (Number.combine onInts onFloats) (.int a) = .int (ns.foldl onInts a) := by
  induction ns generalizing a with
  | nil => rfl
  | cons n ns ih => exact ih (onInts a n)

theorem isFloat_combine (a b : Number) :
    (Number.combine onInts onFloats a b).isFloat = (a.isFloat || b.isFloat) := by
  cases a <;> cases b <;> rfl

/-- One float makes the result a float. -/
theorem isFloat_foldl_combine (a : Number) (ns : List Number) :
    (ns.foldl (Number.combine onInts onFloats) a).isFloat = (a :: ns).any Number.isFloat := by
  induction ns generalizing a with
  | nil => simp
  | cons n ns ih =>
    rw [List.foldl_cons, ih, List.any_cons, isFloat_combine, List.any_cons, List.any_cons, Bool.or_assoc]

end Combine

/-- **A fold that wraps around at every step is exact modulo `2 ^ 64`**, if one step is and if the exact step
respects congruence. -/
theorem foldl_modEq {f : Int64 → Int64 → Int64} {g : Int → Int → Int}
    (hf : ∀ a b, (f a b).toInt ≡ g a.toInt b.toInt [ZMOD 2 ^ 64])
    (hg : ∀ x y z, x ≡ y [ZMOD 2 ^ 64] → g x z ≡ g y z [ZMOD 2 ^ 64]) {a : Int64} {x : Int}
    (hx : a.toInt ≡ x [ZMOD 2 ^ 64]) (ns : List Int64) :
    (ns.foldl f a).toInt ≡ (ns.map Int64.toInt).foldl g x [ZMOD 2 ^ 64] := by
  induction ns generalizing a x with
  | nil => exact hx
  | cons n ns ih => exact ih ((hf a n).trans (hg _ _ _ hx))

theorem toInt_add_modEq (a b : Int64) : (a + b).toInt ≡ a.toInt + b.toInt [ZMOD 2 ^ 64] := by
  rw [Int64.toInt_add]
  exact Int.bmod_emod

theorem toInt_sub_modEq (a b : Int64) : (a - b).toInt ≡ a.toInt - b.toInt [ZMOD 2 ^ 64] := by
  rw [Int64.toInt_sub]
  exact Int.bmod_emod

theorem toInt_mul_modEq (a b : Int64) : (a * b).toInt ≡ a.toInt * b.toInt [ZMOD 2 ^ 64] := by
  rw [Int64.toInt_mul]
  exact Int.bmod_emod

/-- Two words that agree modulo `2 ^ 64` are the same. -/
theorem eq_of_modEq {a b : Int64} (h : a.toInt ≡ b.toInt [ZMOD 2 ^ 64]) : a = b := by
  have ha := a.le_toInt
  have ha' := a.toInt_lt
  have hb := b.le_toInt
  have hb' := b.toInt_lt
  have hmod : a.toInt % 2 ^ 64 = b.toInt % 2 ^ 64 := h
  exact Int64.toInt_inj.mp (by omega)

theorem foldl_sub_eq (x : Int) (zs : List Int) : zs.foldl (· - ·) x = x - zs.sum := by
  induction zs generalizing x with
  | nil => simp
  | cons z zs ih =>
    rw [List.foldl_cons, ih, List.sum_cons]
    omega

/-! ## Sums, differences and products -/

/-- The operations that take any number of arguments together. -/
inductive Fold where
  | sum | difference | product

/-- The name that an operation is called by. -/
def Fold.name : Fold → Bytes
  | sum => "+"
  | difference => "-"
  | product => "*"

/-- The exact result.  There is no difference of nothing, and a single number is taken from zero. -/
def Fold.exactResult? : Fold → List Int → Option Int
  | sum, zs => some zs.sum
  | product, zs => some zs.prod
  | difference, [] => none
  | difference, [z] => some (-z)
  | difference, z :: zs => some (z - zs.sum)

theorem add_of_numbers {ks : List Number} (h : Number.ofValues 0 args = .ok ks) :
    add args = .ok (ks.foldl Number.add (.int 0)).value := by
  rw [add, h]
  rfl

theorem mul_of_numbers {ks : List Number} (h : Number.ofValues 0 args = .ok ks) :
    mul args = .ok (ks.foldl Number.mul (.int 1)).value := by
  rw [mul, h]
  rfl

theorem sub_of_none (h : Number.ofValues 0 args = .ok []) : sub args = .error (.noArgs []) := by
  rw [sub, h]
  rfl

theorem sub_of_one {n : Number} (h : Number.ofValues 0 args = .ok [n]) :
    sub args = .ok (Number.sub (.int 0) n).value := by
  rw [sub, h]
  rfl

theorem sub_of_more {n k : Number} {ks : List Number} (h : Number.ofValues 0 args = .ok (n :: k :: ks)) :
    sub args = .ok ((k :: ks).foldl Number.sub n).value := by
  rw [sub, h]
  rfl

/-! ### The kind of the result -/

section Kind

variable (h : ∀ v ∈ args, v.isNumber = true)
include h

theorem numbers_any_isFloat :
    ∃ ks, Number.ofValues 0 args = .ok ks ∧ ks.length = args.length ∧
      ks.any Number.isFloat = args.any Value.isFloat := by
  obtain ⟨ks, hks, hf⟩ := Number.ofValues_of_numbers h 0
  refine ⟨ks, hks, by simpa using congrArg List.length hf, ?_⟩
  have hany := congrArg (List.any · id) hf
  simpa only [List.any_map, Function.id_comp] using hany

theorem add_isFloat : ∃ r, add args = .ok r ∧ r.isFloat = args.any Value.isFloat := by
  obtain ⟨ks, hks, -, hf⟩ := numbers_any_isFloat h
  refine ⟨_, add_of_numbers hks, ?_⟩
  rw [Number.isFloat_value, Number.add, isFloat_foldl_combine, List.any_cons, hf]
  rfl

theorem mul_isFloat : ∃ r, mul args = .ok r ∧ r.isFloat = args.any Value.isFloat := by
  obtain ⟨ks, hks, -, hf⟩ := numbers_any_isFloat h
  refine ⟨_, mul_of_numbers hks, ?_⟩
  rw [Number.isFloat_value, Number.mul, isFloat_foldl_combine, List.any_cons, hf]
  rfl

theorem sub_isFloat (hne : args ≠ []) : ∃ r, sub args = .ok r ∧ r.isFloat = args.any Value.isFloat := by
  obtain ⟨ks, hks, hlen, hf⟩ := numbers_any_isFloat h
  rcases ks with - | ⟨n, - | ⟨k, ks⟩⟩
  · exact absurd (List.length_eq_zero_iff.mp hlen.symm) hne
  · refine ⟨_, sub_of_one hks, ?_⟩
    rw [Number.isFloat_value, Number.sub, isFloat_combine, ← hf]
    simp [Number.isFloat]
  · refine ⟨_, sub_of_more hks, ?_⟩
    rw [Number.isFloat_value, Number.sub, isFloat_foldl_combine, hf]

end Kind

/-! ### Integers -/

theorem add_integers_modEq (h : Integers args ns) :
    ∃ n, add args = .ok (.int n) ∧ n.toInt ≡ (ns.map Int64.toInt).sum [ZMOD 2 ^ 64] := by
  refine ⟨ns.foldl (· + ·) 0, ?_, ?_⟩
  · rw [add_of_numbers (Number.ofValues_of_integers h 0), Number.add, foldl_combine_integers]
    rfl
  · rw [List.sum_eq_foldl]
    exact foldl_modEq toInt_add_modEq (fun _ _ z hx => hx.add_right z) rfl ns

theorem mul_integers_modEq (h : Integers args ns) :
    ∃ n, mul args = .ok (.int n) ∧ n.toInt ≡ (ns.map Int64.toInt).prod [ZMOD 2 ^ 64] := by
  refine ⟨ns.foldl (· * ·) 1, ?_, ?_⟩
  · rw [mul_of_numbers (Number.ofValues_of_integers h 0), Number.mul, foldl_combine_integers]
    rfl
  · rw [List.prod_eq_foldl]
    exact foldl_modEq toInt_mul_modEq (fun _ _ z hx => hx.mul_right z) rfl ns

theorem sub_integers_modEq (h : Integers args ns) {z : Int}
    (hz : Fold.difference.exactResult? (ns.map Int64.toInt) = some z) :
    ∃ n, sub args = .ok (.int n) ∧ n.toInt ≡ z [ZMOD 2 ^ 64] := by
  have hread := Number.ofValues_of_integers h 0
  rcases ns with - | ⟨n, - | ⟨k, ns⟩⟩
  · cases hz
  · obtain rfl : -n.toInt = z := Option.some.inj hz
    refine ⟨0 - n, sub_of_one hread, ?_⟩
    simpa using toInt_sub_modEq 0 n
  · obtain rfl : n.toInt - ((k :: ns).map Int64.toInt).sum = z := Option.some.inj hz
    refine ⟨(k :: ns).foldl (· - ·) n, ?_, ?_⟩
    · rw [sub_of_more hread, Number.sub, ← List.map_cons, foldl_combine_integers]
      rfl
    · rw [← foldl_sub_eq]
      exact foldl_modEq toInt_sub_modEq (fun _ _ z hx => hx.sub_right z) rfl (k :: ns)

/-- An operation that is exact modulo `2 ^ 64` for a result that does not depend on the order of the numbers does
not depend on the order of its arguments. -/
theorem eq_of_perm {f : List Value → Except Failure Value} {g : List Int → Int}
    (hg : ∀ xs ys, xs.Perm ys → g xs = g ys)
    (hf : ∀ {args ns}, Integers args ns → ∃ n, f args = .ok (.int n) ∧
      n.toInt ≡ g (ns.map Int64.toInt) [ZMOD 2 ^ 64])
    {args' : List Value} (h : Integers args ns) (hp : args.Perm args') : f args' = f args := by
  obtain ⟨ns', h', hperm⟩ := List.perm_comp_forall₂ hp.symm h
  obtain ⟨n, hn, hmod⟩ := hf h
  obtain ⟨n', hn', hmod'⟩ := hf h'
  rw [hg _ _ (hperm.map Int64.toInt)] at hmod'
  rw [hn, hn', eq_of_modEq (hmod'.trans hmod.symm)]

/-! ### The three operations together -/

namespace Fold

variable {o : Fold}

/-- What the operation computes. -/
def apply : Fold → List Value → Except Failure Value
  | sum => add
  | difference => sub
  | product => mul

theorem lookup_name (o : Fold) : Table.standard.lookup o.name = some (.pure o.apply) := by
  cases o <;> rfl

theorem apply_of_other {i : Nat} {v : Value} (h : FirstOther args i v) :
    o.apply args = .error (.notNumber i v.kindName) := by
  have hread := Number.ofValues_of_other h 0
  rw [Nat.zero_add] at hread
  cases o with
  | sum =>
    rw [apply, add, hread]
    rfl
  | difference =>
    rw [apply, sub, hread]
    rfl
  | product =>
    rw [apply, mul, hread]
    rfl

theorem apply_isFloat (h : ∀ v ∈ args, v.isNumber = true) (hne : o = difference → args ≠ []) :
    ∃ r, o.apply args = .ok r ∧ r.isFloat = args.any Value.isFloat := by
  cases o with
  | sum => exact add_isFloat h
  | difference => exact sub_isFloat h (hne rfl)
  | product => exact mul_isFloat h

theorem apply_modEq (h : Integers args ns) {z : Int} (hz : o.exactResult? (ns.map Int64.toInt) = some z) :
    ∃ n, o.apply args = .ok (.int n) ∧ n.toInt ≡ z [ZMOD 2 ^ 64] := by
  cases o with
  | sum =>
    obtain rfl := Option.some.inj hz
    exact add_integers_modEq h
  | difference => exact sub_integers_modEq h hz
  | product =>
    obtain rfl := Option.some.inj hz
    exact mul_integers_modEq h

theorem apply_of_none (h : Integers args ns) (hz : o.exactResult? (ns.map Int64.toInt) = none) :
    o.apply args = .error (.noArgs []) := by
  cases o with
  | sum => cases hz
  | product => cases hz
  | difference =>
    rcases ns with - | ⟨n, - | ⟨k, ns⟩⟩
    · exact sub_of_none (Number.ofValues_of_integers h 0)
    · cases hz
    · cases hz

theorem apply_perm (ho : o ≠ difference) (h : Integers args ns) {args' : List Value} (hp : args.Perm args') :
    o.apply args' = o.apply args := by
  cases o with
  | sum => exact eq_of_perm (fun _ _ => List.Perm.sum_eq) add_integers_modEq h hp
  | difference => exact absurd rfl ho
  | product => exact eq_of_perm (fun _ _ => List.Perm.prod_eq) mul_integers_modEq h hp

end Fold

/-- **Sums, differences and products.**  The first argument that is no number is the error.  If all are numbers,
there is a result unless it is the difference of nothing, and it is a float if and only if an argument is.  For
integers it is the exact result modulo `2 ^ 64`; the order of the arguments of a sum or product is of no account
then. -/
theorem fold_exact (o : Fold) : ∃ f, Table.standard.lookup o.name = some (.pure f) ∧ ∀ args : List Value,
    ((∃ v ∈ args, v.isNumber = false) →
      ∃ i v, FirstOther args i v ∧ f args = .error (.notNumber i v.kindName)) ∧
    ((∀ v ∈ args, v.isNumber = true) → (o = .difference → args ≠ []) →
      ∃ r, f args = .ok r ∧ (r.isFloat = true ↔ ∃ v ∈ args, v.isFloat = true)) ∧
    ∀ ns, Integers args ns →
      (∀ z, o.exactResult? (ns.map Int64.toInt) = some z →
        ∃ n, f args = .ok (.int n) ∧ n.toInt ≡ z [ZMOD 2 ^ 64]) ∧
      (o.exactResult? (ns.map Int64.toInt) = none → f args = .error (.noArgs [])) ∧
      (o ≠ .difference → ∀ args', args.Perm args' → f args' = f args) := by
  refine ⟨o.apply, o.lookup_name, fun args => ⟨fun hother => ?_, fun hnumbers hne => ?_, fun ns h => ?_⟩⟩
  · obtain ⟨i, v, hfirst⟩ := exists_firstOther hother
    exact ⟨i, v, hfirst, Fold.apply_of_other hfirst⟩
  · obtain ⟨r, hr, hf⟩ := Fold.apply_isFloat hnumbers hne
    exact ⟨r, hr, by rw [hf, List.any_eq_true]⟩
  · exact ⟨fun z hz => Fold.apply_modEq h hz, Fold.apply_of_none h, fun ho args' hp => Fold.apply_perm ho h hp⟩

theorem fold_exact_past_the_end : ∃ f, Table.standard.lookup "+" = some (.pure f) ∧
    (∃ n, f [.int Int64.maxValue, .raw 1, .int Int64.maxValue] = .ok (.int n) ∧
      n.toInt ≡ 2 ^ 64 - 1 [ZMOD 2 ^ 64]) ∧
    ∃ i v, FirstOther [.raw 1, .string "2", .nil] i v ∧
      f [.raw 1, .string "2", .nil] = .error (.notNumber i v.kindName) := by
  obtain ⟨f, hf, h⟩ := fold_exact .sum
  have hints : Integers [.int Int64.maxValue, .raw 1, .int Int64.maxValue] [Int64.maxValue, 1, Int64.maxValue] :=
    .cons rfl (.cons rfl (.cons rfl .nil))
  exact ⟨f, hf, ((h _).2.2 _ hints).1 _ rfl, (h _).1 ⟨.nil, by simp, rfl⟩⟩

/-! ## Division -/

theorem quotient_integers {a b : Int64} (hb : b ≠ 0) : quotient [.int a, .int b] = .ok (.int (a / b)) := by
  rw [quotient, integers_of_ne_zero hb]
  rfl

theorem div_integers {a b : Int64} (hb : b ≠ 0) :
    div [.int a, .int b] =
      .ok (if a % b == 0 then .int (a / b) else .float (.ofInt a.toInt / .ofInt b.toInt)) := by
  have hzero : (Number.int b).isZero = false := by simpa [Number.isZero] using hb
  have hdiv : Number.div (.int a) (.int b) =
      .ok (if a % b == 0 then .int (a / b) else .float (.ofInt a.toInt / .ofInt b.toInt)) := by
    rw [Number.div, hzero]
    rfl
  have hfold : div [.int a, .int b] = (Number.div (.int a) (.int b)).map Number.value := by
    show (do return (← [Number.int b].foldlM Number.div (.int a)).value : Except Failure Value) = _
    rw [List.foldlM_cons]
    cases Number.div (.int a) (.int b) <;> rfl
  rw [hfold, hdiv]
  split <;> rfl

/-- A word divides another one if and only if there is no remainder. -/
theorem mod_eq_zero_iff (a b : Int64) : a % b = 0 ↔ b.toInt ∣ a.toInt := by
  rw [← Int64.toInt_inj, Int64.toInt_mod, Int.dvd_iff_tmod_eq_zero]
  rfl

/-- The one quotient that does not fit into 64 bits. -/
def Overflows (a b : Int64) : Prop := a = Int64.minValue ∧ b = -1

theorem toInt_div_of_fits {a b : Int64} (h : ¬ Overflows a b) : (a / b).toInt = a.toInt.tdiv b.toInt := by
  by_cases ha : a = Int64.minValue
  · exact Int64.toInt_div_of_ne_right a b fun hb => h ⟨ha, hb⟩
  · exact Int64.toInt_div_of_ne_left a b ha

/-- Quotient and remainder make up the dividend, if the quotient fits. -/
theorem div_mul_add_mod {a b : Int64} (h : ¬ Overflows a b) :
    a.toInt = (a / b).toInt * b.toInt + (a % b).toInt := by
  rw [toInt_div_of_fits h, Int64.toInt_mod, Int.tdiv_mul_add_tmod]

/-- The overflow is no matter modulo `2 ^ 64`. -/
theorem div_mul_add_mod_modEq (a b : Int64) :
    (a / b).toInt * b.toInt + (a % b).toInt ≡ a.toInt [ZMOD 2 ^ 64] := by
  have hq : (a / b).toInt ≡ a.toInt.tdiv b.toInt [ZMOD 2 ^ 64] := by
    rw [Int64.toInt_div]
    exact Int.bmod_emod
  have hsum := (hq.mul_right b.toInt).add_right (a.toInt.tmod b.toInt)
  rwa [Int.tdiv_mul_add_tmod, ← Int64.toInt_mod] at hsum

theorem mod_bounds {b : Int64} (hb : b ≠ 0) (a : Int64) :
    (a % b).toInt.natAbs < b.toInt.natAbs ∧ ((a % b).toInt = 0 ∨ (a % b).toInt.sign = a.toInt.sign) := by
  have hpos : 0 < b.toInt.natAbs := Int.natAbs_pos.mpr fun h => hb (Int64.toInt_inj.mp h)
  rw [Int64.toInt_mod, Int.natAbs_tmod, Int.sign_tmod]
  refine ⟨Nat.mod_lt _ hpos, ?_⟩
  by_cases hdvd : b.toInt ∣ a.toInt
  · exact .inl (Int.tmod_eq_zero_of_dvd hdvd)
  · exact .inr (if_neg hdvd)

/-- **Integer division is exact** but for one quotient.  The remainder is less than the divisor and has the sign of
the dividend; division gives an integer if and only if there is no remainder.  Where the quotient does not fit, the
equations hold modulo `2 ^ 64`. -/
theorem division_exact {a b : Int64} (hb : b ≠ 0) :
    Table.standard.lookup "quotient" = some (.pure quotient) ∧
    Table.standard.lookup "rem" = some (.pure remainder) ∧
    Table.standard.lookup "/" = some (.pure div) ∧ ∃ q r : Int64,
      quotient [.int a, .int b] = .ok (.int q) ∧ remainder [.int a, .int b] = .ok (.int r) ∧
      (¬ Overflows a b → a.toInt = q.toInt * b.toInt + r.toInt) ∧
      q.toInt * b.toInt + r.toInt ≡ a.toInt [ZMOD 2 ^ 64] ∧
      r.toInt.natAbs < b.toInt.natAbs ∧ (r.toInt = 0 ∨ r.toInt.sign = a.toInt.sign) ∧
      (∃ v, div [.int a, .int b] = .ok v) ∧
      ((∃ c, div [.int a, .int b] = .ok (.int c)) ↔ b.toInt ∣ a.toInt) ∧
      ∀ c, div [.int a, .int b] = .ok (.int c) →
        (¬ Overflows a b → c.toInt * b.toInt = a.toInt) ∧ c.toInt * b.toInt ≡ a.toInt [ZMOD 2 ^ 64] := by
  obtain ⟨hless, hsign⟩ := mod_bounds hb a
  refine ⟨rfl, rfl, rfl, a / b, a % b, quotient_integers hb, remainder_integers hb, div_mul_add_mod,
    div_mul_add_mod_modEq a b, hless, hsign, ⟨_, div_integers hb⟩, ?_⟩
  rw [div_integers hb, ← mod_eq_zero_iff]
  by_cases hr : a % b = 0
  · rw [if_pos (beq_iff_eq.mpr hr)]
    refine ⟨⟨fun _ => hr, fun _ => ⟨a / b, rfl⟩⟩, fun c hc => ?_⟩
    obtain rfl : a / b = c := Value.int.inj (Except.ok.inj hc)
    have hexact := div_mul_add_mod (a := a) (b := b)
    have hmod := div_mul_add_mod_modEq a b
    rw [hr, Int64.toInt_zero, Int.add_zero] at hexact hmod
    exact ⟨fun h => (hexact h).symm, hmod⟩
  · rw [if_neg (mt beq_iff_eq.mp hr)]
    refine ⟨⟨?_, fun h => absurd h hr⟩, fun c hc => ?_⟩
    · rintro ⟨c, hc⟩
      cases hc
    · cases hc

theorem division_exact_least_by_ten : (10 : Int64) ≠ 0 ∧ ∃ q r : Int64,
    quotient [.int Int64.minValue, .int 10] = .ok (.int q) ∧
    remainder [.int Int64.minValue, .int 10] = .ok (.int r) ∧
    Int64.minValue.toInt = q.toInt * (10 : Int64).toInt + r.toInt ∧
    r.toInt.natAbs < (10 : Int64).toInt.natAbs := by
  have hten : (10 : Int64) ≠ 0 := by decide
  have hfits : ¬ Overflows Int64.minValue 10 := fun h => absurd h.2 (by decide)
  obtain ⟨-, -, -, q, r, hq, hr, hexact, -, hless, -⟩ := division_exact (a := Int64.minValue) hten
  exact ⟨hten, q, r, hq, hr, hexact hfits, hless⟩

/-- The quotient of the least integer by minus one is that integer again, and not the exact quotient. -/
theorem division_of_least_by_minus_one : (-1 : Int64) ≠ 0 ∧
    quotient [.int Int64.minValue, .int (-1)] = .ok (.int Int64.minValue) ∧
    remainder [.int Int64.minValue, .int (-1)] = .ok (.int 0) ∧
    Int64.minValue.toInt ≠ Int64.minValue.toInt * (-1 : Int64).toInt + (0 : Int64).toInt ∧
    div [.int Int64.minValue, .int (-1)] = .ok (.int Int64.minValue) ∧
    Int64.minValue.toInt * (-1 : Int64).toInt ≠ Int64.minValue.toInt := by
  have hne : (-1 : Int64) ≠ 0 := by decide
  have hquotient : Int64.minValue / (-1) = Int64.minValue := by decide
  have hremainder : Int64.minValue % (-1) = 0 := by decide
  refine ⟨hne, ?_, ?_, by decide, ?_, by decide⟩
  · rw [quotient_integers hne, hquotient]
  · rw [remainder_integers hne, hremainder]
  · rw [div_integers hne, hremainder, hquotient]
    rfl

end Arithmetic

end RegisterMachine
