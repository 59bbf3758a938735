import Mathlib.Data.Int.ModEq
import RegisterMachine.Description.Basic
import RegisterMachine.Proofs.ValueReading

/-!
# Initial values

A decoded value is normalised before a register holds it.  Its lists are searched for integers, its tables are not,
and an integer without a sign keeps its 64 bits and not its value.

* `Value.denoted?`: the number that an integer of any kind denotes.
* `Value.Corresponds R`: values of one shape, which differ in their integers only, and there by `R`.
* `Value.corresponds_self_iff`, `Value.corresponds_normal_iff`: what it takes for a value to correspond to itself
  and to its normal form.
* `Value.normal_preserves`: normalising is idempotent, keeps the shape and every integer modulo `2 ^ 64`; when it
  makes every integer a machine integer of the same value.
-/

namespace RegisterMachine

namespace Value

/-! ## Integers inside values -/

/-- The number that an integer of any kind denotes. -/
def denoted? : Value → Option Int
  | int n | raw n => some n.toInt
  | natural n => some n.toNat
  | _ => none

/-- The value has keys: a table, a sequence of tables or a mapping. -/
def isTable : Value → Bool
  | table _ | tables _ | mapping _ => true
  | _ => false

/-- The values that stand directly in a list or in a table. -/
def members : Value → List Value
  | list items => items
  | table entries => entries.map Prod.snd
  | tables rows => rows.map table
  | mapping entries => entries.flatMap fun e => [e.1, e.2]
  | _ => []

/-- A list or a table without its members; any other value as it is. -/
def shell : Value → Value
  | list items => list (items.map fun _ => nil)
  | table entries => table (entries.map fun e => (e.1, nil))
  | tables rows => tables (rows.map fun _ => [])
  | mapping entries => mapping (entries.map fun _ => (nil, nil))
  | v => v

/-- `x` is the value or stands in it at some depth. -/
inductive Within (x : Value) : Value → Prop
  | self : Within x x
  | member {v w : Value} : w ∈ v.members → Within x w → Within x v

/-- The values have the same shape.  Their integers are related by `R`, and everything else is the same. -/
inductive Corresponds (R : Value → Value → Prop) : Value → Value → Prop
  | integer {v w : Value} : v.denoted? ≠ none → R v w → Corresponds R v w
  | other {v w : Value} : v.denoted? = none → v.shell = w.shell →
      (∀ p ∈ v.members.zip w.members, Corresponds R p.1 p.2) → Corresponds R v w

/-- The second value is a machine integer and denotes the same number as the first one. -/
def Exact (v w : Value) : Prop := ∃ m, w = int m ∧ v.denoted? = some m.toInt

/-- The values denote numbers that agree in their last 64 bits. -/
def Congruent (v w : Value) : Prop := ∃ a b, v.denoted? = some a ∧ w.denoted? = some b ∧ a ≡ b [ZMOD 2 ^ 64]

/-! ## Members -/

theorem sizeOf_lt_of_mem_members {v w : Value} (h : w ∈ v.members) : sizeOf w < sizeOf v := by
  cases v with
  | list items =>
    have : sizeOf w < sizeOf items := List.sizeOf_lt_of_mem h
    rw [list.sizeOf_spec]
    omega
  | table entries =>
    obtain ⟨⟨key, w⟩, he, rfl⟩ := List.mem_map.mp h
    have := List.sizeOf_lt_of_mem he
    rw [table.sizeOf_spec]
    rw [Prod.mk.sizeOf_spec] at this
    dsimp only
    omega
  | tables rows =>
    obtain ⟨entries, he, rfl⟩ := List.mem_map.mp h
    have := List.sizeOf_lt_of_mem he
    rw [table.sizeOf_spec, tables.sizeOf_spec]
    omega
  | mapping entries =>
    obtain ⟨⟨key, value⟩, he, hw⟩ := List.mem_flatMap.mp h
    have := List.sizeOf_lt_of_mem he
    rw [mapping.sizeOf_spec]
    rw [Prod.mk.sizeOf_spec] at this
    rcases List.mem_pair.mp hw with rfl | rfl <;> omega
  | _ => exact absurd h List.not_mem_nil

/-- What holds of a value if it holds of its members holds of all values. -/
theorem members_induction {P : Value → Prop} (step : ∀ v, (∀ w ∈ v.members, P w) → P v) (v : Value) : P v :=
  step v fun w hw =>
    have := sizeOf_lt_of_mem_members hw
    members_induction step w
termination_by sizeOf v

theorem members_of_denoted {v : Value} (h : v.denoted? ≠ none) : v.members = [] := by
  cases v <;> first | rfl | exact absurd rfl h

/-! ## Corresponding values -/

variable {R : Value → Value → Prop}

theorem corresponds_integer_iff {v w : Value} (h : v.denoted? ≠ none) : Corresponds R v w ↔ R v w := by
  refine ⟨fun ha => ?_, .integer h⟩
  cases ha with
  | integer _ hR => exact hR
  | other hnone => exact absurd hnone h

theorem corresponds_other_iff {v w : Value} (h : v.denoted? = none) :
    Corresponds R v w ↔ v.shell = w.shell ∧ ∀ p ∈ v.members.zip w.members, Corresponds R p.1 p.2 := by
  refine ⟨fun ha => ?_, fun ha => .other h ha.1 ha.2⟩
  cases ha with
  | integer hsome => exact absurd h hsome
  | other _ hshell hmembers => exact ⟨hshell, hmembers⟩

theorem forall_mem_zip_map {xs : List Value} (f : Value → Value) {P : Value → Value → Prop} :
    (∀ p ∈ xs.zip (xs.map f), P p.1 p.2) ↔ ∀ x ∈ xs, P x (f x) := by
  induction xs with
  | nil => simp
  | cons x xs ih => simp only [List.map_cons, List.zip_cons_cons, List.forall_mem_cons, ih]

theorem corresponds_self_of_members {v : Value} (h : v.denoted? = none) :
    Corresponds R v v ↔ ∀ w ∈ v.members, Corresponds R w w := by
  have hzip : (∀ p ∈ v.members.zip v.members, Corresponds R p.1 p.2) ↔ ∀ w ∈ v.members, Corresponds R w w := by
    simpa only [List.map_id, id_eq] using forall_mem_zip_map (P := Corresponds R) id
  rw [corresponds_other_iff h, hzip]
  exact and_iff_right rfl

/-- A value corresponds to itself if every integer at every depth is related to itself. -/
theorem corresponds_self_iff {v : Value} : Corresponds R v v ↔ ∀ x, Within x v → x.denoted? ≠ none → R x x := by
  constructor
  · intro ha x hx
    induction hx with
    | self => exact fun hsome => (corresponds_integer_iff hsome).mp ha
    | @member v w hw _ ih =>
      have hv : v.denoted? = none := by
        by_contra hsome
        rw [members_of_denoted hsome] at hw
        exact List.not_mem_nil hw
      exact ih ((corresponds_self_of_members hv).mp ha w hw)
  · induction v using members_induction with
    | step v ih =>
      intro h
      by_cases hv : v.denoted? = none
      · exact (corresponds_self_of_members hv).mpr fun w hw => ih w hw fun x hx => h x (.member hw hx)
      · exact .integer hv (h v .self hv)

/-! ## Normal forms -/

theorem normals_eq_map (vs : List Value) : normals vs = vs.map normal := by
  induction vs with
  | nil => rfl
  | cons v vs ih => rw [normals, ih, List.map_cons]

/-- Normalising a second time changes nothing. -/
theorem normal_normal (v : Value) : v.normal.normal = v.normal := by
  induction v using members_induction with
  | step v ih =>
    cases v with
    | list items =>
      have hitems : ∀ w ∈ items, w.normal.normal = w.normal := ih
      simpa [normal, normals_eq_map] using hitems
    | _ => rfl

theorem mem_parts_list {x : Value} {items : List Value} :
    x ∈ (list items).parts ↔ x = list items ∨ ∃ w ∈ items, x ∈ w.parts := by
  rw [parts, List.mem_cons, mem_partsIn]

/-- A value corresponds to its normal form if this holds of every integer that is reached through lists, and if
every table that is reached so corresponds to itself. -/
theorem corresponds_normal_iff {v : Value} : Corresponds R v v.normal ↔
    (∀ x ∈ v.parts, x.denoted? ≠ none → R x x.normal) ∧ ∀ t ∈ v.parts, t.isTable = true → Corresponds R t t := by
  induction v using members_induction with
  | step v ih =>
    cases v with
    | list items =>
      have ih : ∀ w ∈ items, (Corresponds R w w.normal ↔ _) := ih
      have hitems : Corresponds R (list items) (list items).normal ↔ ∀ w ∈ items, Corresponds R w w.normal := by
        rw [normal, normals_eq_map, corresponds_other_iff rfl, ← forall_mem_zip_map normal]
        exact and_iff_right (by simp [shell, Function.comp_def])
      rw [hitems, forall₂_congr ih]
      simp only [mem_parts_list]
      -- The list itself is neither an integer nor a table, so both conditions are about its items.
      constructor
      · intro h
        refine ⟨?_, ?_⟩
        · rintro x (rfl | ⟨w, hw, hx⟩) hsome
          · exact absurd rfl hsome
          · exact (h w hw).1 x hx hsome
        · rintro t (rfl | ⟨w, hw, ht⟩) htable
          · cases htable
          · exact (h w hw).2 t ht htable
      · rintro ⟨hints, htables⟩ w hw
        exact ⟨fun x hx => hints x (.inr ⟨w, hw, hx⟩), fun t ht => htables t (.inr ⟨w, hw, ht⟩)⟩
    | int n | raw n | natural n =>
      refine (corresponds_integer_iff (by simp [denoted?])).trans ?_
      simp [parts, isTable, denoted?]
    | table entries | tables rows | mapping entries => simp [parts, isTable, denoted?, normal]
    | _ =>
      refine iff_of_true (.other rfl rfl fun _ hp => absurd hp List.not_mem_nil) ?_
      simp [parts, isTable, denoted?]

theorem toInt_toInt64_modEq (n : UInt64) : (n.toNat : Int) ≡ n.toInt64.toInt [ZMOD 2 ^ 64] := by
  have h : n.toInt64.toInt = Int.bmod n.toNat (2 ^ 64) := n.toBitVec.toInt_eq_toNat_bmod
  rw [h]
  exact Int.bmod_emod.symm

theorem toInt_toInt64_eq_iff (n : UInt64) : (n.toNat : Int) = n.toInt64.toInt ↔ n.toNat < 2 ^ 63 := by
  have h : n.toInt64.toInt = if 2 * n.toNat < 2 ^ 64 then (n.toNat : Int) else n.toNat - (2 ^ 64 : Nat) :=
    n.toBitVec.toInt_eq_toNat_cond
  rw [h]
  split <;> omega

theorem congruent_refl {v : Value} (h : v.denoted? ≠ none) : Congruent v v := by
  obtain ⟨a, ha⟩ := Option.ne_none_iff_exists'.mp h
  exact ⟨a, a, ha, ha, .refl a⟩

theorem congruent_normal {v : Value} (h : v.denoted? ≠ none) : Congruent v v.normal := by
  cases v with
  | int n | raw n => exact ⟨_, _, rfl, rfl, .refl _⟩
  | natural n => exact ⟨_, _, rfl, rfl, toInt_toInt64_modEq n⟩
  | _ => exact absurd rfl h

theorem exact_self_iff {v : Value} : Exact v v ↔ ∃ m, v = int m :=
  ⟨fun ⟨m, hv, _⟩ => ⟨m, hv⟩, fun ⟨m, hv⟩ => ⟨m, hv, by rw [hv]; rfl⟩⟩

/-- Of the integers only those without a sign can become other numbers. -/
theorem exact_normal_iff {v : Value} (h : v.denoted? ≠ none) :
    Exact v v.normal ↔ ∀ n, v = natural n → n.toNat < 2 ^ 63 := by
  cases v with
  | int n | raw n => exact ⟨fun _ _ hn => (by cases hn), fun _ => ⟨n, rfl, rfl⟩⟩
  | natural n => simp [Exact, normal, denoted?, toInt_toInt64_eq_iff]
  | _ => exact absurd rfl h

/-- **Normalising keeps a value up to its integers, and these modulo `2 ^ 64`.**  It is idempotent.  Every integer
at every depth becomes a machine integer of the same value exactly if every integer without a sign that is reached
through lists fits, and if the integers at any depth of every table that is reached so are machine integers
already. -/
theorem normal_preserves (v : Value) :
    v.normal.normal = v.normal ∧ Corresponds Congruent v v.normal ∧
      (Corresponds Exact v v.normal ↔
        (∀ n, natural n ∈ v.parts → n.toNat < 2 ^ 63) ∧
        ∀ t ∈ v.parts, t.isTable = true → ∀ x, Within x t → x.denoted? ≠ none → ∃ m, x = int m) := by
  refine ⟨v.normal_normal, ?_, ?_⟩
  · rw [corresponds_normal_iff]
    exact ⟨fun x _ hx => congruent_normal hx,
      fun t _ _ => corresponds_self_iff.mpr fun x _ hx => congruent_refl hx⟩
  · rw [corresponds_normal_iff]
    refine and_congr ?_ ?_
    · constructor
      · intro h n hn
        have hsome : (natural n).denoted? ≠ none := Option.some_ne_none _
        exact (exact_normal_iff hsome).mp (h _ hn hsome) n rfl
      · intro h x hx hsome
        exact (exact_normal_iff hsome).mpr fun n hn => h n (hn ▸ hx)
    · simp only [corresponds_self_iff, exact_self_iff]

example : (list [raw 1, list [natural 2, bool true], table [(utf8 "k", int 3)]]).normal =
    list [int 1, list [int 2, bool true], table [(utf8 "k", int 3)]] := rfl

/-- A decoded integer in a table stays what it is, and the largest integer without a sign becomes `-1`. -/
theorem normal_not_exact :
    (table [(utf8 "b", raw 1)]).normal = table [(utf8 "b", raw 1)] ∧
    ¬ Corresponds Exact (table [(utf8 "b", raw 1)]) (table [(utf8 "b", raw 1)]).normal ∧
    (natural 18446744073709551615).normal = int (-1) ∧
    ¬ Corresponds Exact (natural 18446744073709551615) (natural 18446744073709551615).normal := by
  refine ⟨rfl, fun h => ?_, rfl, fun h => ?_⟩
  · have hraw : Within (raw 1) (table [(utf8 "b", raw 1)]) := .member (List.mem_singleton_self _) .self
    obtain ⟨m, hm⟩ := exact_self_iff.mp (corresponds_self_iff.mp h _ hraw (Option.some_ne_none _))
    cases hm
  · have hsome : (natural 18446744073709551615).denoted? ≠ none := Option.some_ne_none _
    have hlt := (exact_normal_iff hsome).mp ((corresponds_integer_iff hsome).mp h) _ rfl
    exact absurd hlt (by decide)

end Value

end RegisterMachine
