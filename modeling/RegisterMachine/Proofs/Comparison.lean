import RegisterMachine.Proofs.Arithmetic

/-!
# Chained comparison

A comparison looks at neighbours only.  Between integers that is enough, because each of the five relations is
transitive.

* `Arithmetic.holds_iff_isChain`: what the comparison of neighbours says.
* `Arithmetic.compare_decides`: a chained comparison decides the relation between any two arguments.
-/

namespace RegisterMachine.Arithmetic

variable {args : List Value} {ns : List Int64}

instance (c : Comparison) : Trans c.Relates c.Relates c.Relates where
  trans {x y z} hxy hyz := by
    cases c with
    | eq => exact Eq.trans hxy hyz
    | lt => exact Int.lt_trans hxy hyz
    | gt => exact Int.lt_trans hyz hxy
    | le => exact Int.le_trans hxy hyz
    | ge => exact Int.le_trans hyz hxy

theorem holds_iff_isChain (c : Comparison) (ns : List Int64) :
    holds c (ns.map .int) = true ↔ (ns.map Int64.toInt).IsChain c.Relates := by
  induction ns with
  | nil => exact iff_of_true rfl .nil
  | cons a ns ih =>
    cases ns with
    | nil => exact iff_of_true rfl (.singleton _)
    | cons b ns =>
      rw [List.map_cons, List.map_cons, holds, Bool.and_eq_true, accepts_integers_iff, ← List.map_cons, ih]
      exact List.isChain_cons_cons.symm

/-- Neighbours in order are all in order. -/
theorem holds_iff_pairwise (c : Comparison) (ns : List Int64) :
    holds c (ns.map .int) = true ↔ (ns.map Int64.toInt).Pairwise c.Relates := by
  rw [holds_iff_isChain, List.isChain_iff_pairwise]

theorem lookup_comparison (c : Comparison) : Table.standard.lookup c.name = some (.pure (compareAll c)) := by
  cases c <;> rfl

theorem compareAll_of_ne_nil (c : Comparison) (h : args ≠ []) :
    compareAll c args = (Number.ofValues 0 args).map fun ks => .bool (holds c ks) := by
  rw [compareAll, if_neg (by simpa using h)]
  rfl

theorem compareAll_of_integers (c : Comparison) (hne : ns ≠ []) (h : Integers args ns) :
    compareAll c args = .ok (.bool (holds c (ns.map .int))) := by
  have hargs : args ≠ [] := by
    rintro rfl
    exact hne (List.forall₂_nil_left_iff.mp h)
  rw [compareAll_of_ne_nil c hargs, Number.ofValues_of_integers h]
  rfl

theorem compareAll_of_other (c : Comparison) {i : Nat} {v : Value} (h : FirstOther args i v) :
    compareAll c args = .error (.notNumber i v.kindName) := by
  have hargs : args ≠ [] := by
    rintro rfl
    cases h.here
  rw [compareAll_of_ne_nil c hargs, Number.ofValues_of_other h, Nat.zero_add]
  rfl

/-- **A chained comparison decides the whole order.**  For integers it is true if and only if the relation holds
from every argument to every later one.  The first argument that is no number is an error, whatever stands before
it. -/
theorem compare_decides (c : Comparison) :
    ∃ f, Table.standard.lookup c.name = some (.pure f) ∧ ∀ args : List Value, (∀ ns, ns ≠ [] → Integers args ns →
      ∃ b, f args = .ok (.bool b) ∧ (b = true ↔ (ns.map Int64.toInt).Pairwise c.Relates)) ∧
    ((∃ v ∈ args, v.isNumber = false) →
      ∃ i v, FirstOther args i v ∧ f args = .error (.notNumber i v.kindName)) := by
  refine ⟨compareAll c, lookup_comparison c, fun args => ⟨fun ns hne h => ?_, fun hother => ?_⟩⟩
  · exact ⟨_, compareAll_of_integers c hne h, holds_iff_pairwise c ns⟩
  · obtain ⟨i, v, hfirst⟩ := exists_firstOther hother
    exact ⟨i, v, hfirst, compareAll_of_other c hfirst⟩

theorem compare_decides_behind_violation : ∃ f, Table.standard.lookup "<" = some (.pure f) ∧
    (∃ b, f [.int Int64.minValue, .raw (-1), .int Int64.maxValue] = .ok (.bool b) ∧
      (b = true ↔
        [Int64.minValue.toInt, (-1 : Int64).toInt, Int64.maxValue.toInt].Pairwise Comparison.lt.Relates)) ∧
    ∃ i v, FirstOther [.int 2, .int 1, .symbol "x"] i v ∧
      f [.int 2, .int 1, .symbol "x"] = .error (.notNumber i v.kindName) := by
  obtain ⟨f, hf, h⟩ := compare_decides .lt
  have hints : Integers [.int Int64.minValue, .raw (-1), .int Int64.maxValue] [Int64.minValue, -1,
      Int64.maxValue] :=
    .cons rfl (.cons rfl (.cons rfl .nil))
  exact ⟨f, hf, (h _).1 _ (by simp) hints, (h _).2 ⟨.symbol "x", by simp, rfl⟩⟩

end RegisterMachine.Arithmetic
