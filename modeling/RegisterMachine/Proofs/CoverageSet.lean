import Mathlib.Data.List.Induction
import RegisterMachine.Machine.Coverage

/-!
# A bitmap as a set

* `Coverage.bit_eq`: the test with a mask looks at one bit.
* `Coverage.isSet_set`, `Coverage.isSet_reset`, `Coverage.isSet_copy`: what a bitmap holds after a change.
* `Coverage.showUntil`: what a visitor sees of a list.
* `Coverage.visitWord_eq`, `Coverage.visitWords_eq`, `Coverage.visit_eq`: a visitor is shown the list of the
  members.
* `Coverage.toList_eq`, `Coverage.pairwise_toList`, `Coverage.mem_toList`: the members are the indexes that are
  set, in ascending order.
* `Coverage.size_eq_countP`: `size` counts them, and any bound on them may be used for counting.
-/

namespace RegisterMachine.Coverage

/-! ## Bits of a word -/

theorem bit_eq {j : Nat} (h : j < 64) (w : UInt64) : bit w j = w.toBitVec.getLsbD j := by
  have hmask : (BitVec.twoPow 64 j).getLsbD j = true := by simp [h]
  have hzero : (w &&& mask j = 0) ↔ w.toBitVec.getLsbD j = false := by
    rw [← UInt64.toBitVec_inj, UInt64.toBitVec_and, toBitVec_mask h, BitVec.and_twoPow]
    cases w.toBitVec.getLsbD j with
    | false => simp
    | true =>
      simp only [if_true]
      refine iff_of_false ?_ (by simp)
      intro hz
      rw [hz] at hmask
      simp at hmask
  cases hb : w.toBitVec.getLsbD j with
  | false => simp [bit, hzero, hb]
  | true => simp [bit, hzero, hb]

theorem bit_zero {j : Nat} (h : j < 64) : bit 0 j = false := by
  rw [bit_eq h]
  simp

theorem bit_or_mask {i j : Nat} (hi : i < 64) (hj : j < 64) (w : UInt64) :
    bit (w ||| mask i) j = (bit w j || i == j) := by
  rw [bit_eq hj, bit_eq hj, UInt64.toBitVec_or, BitVec.getLsbD_or, toBitVec_mask hi, BitVec.getLsbD_twoPow,
    decide_eq_true hi, Bool.true_and]
  rfl

/-! ## Members -/

theorem isSet_eq_bit (c : Coverage) (i : Nat) : c.isSet i = bit ((c.words[i / 64]?).getD 0) (i % 64) := by
  unfold isSet
  cases c.words[i / 64]? with
  | some w => rfl
  | none => exact (bit_zero (Nat.mod_lt i (by omega))).symm

theorem getD_grow (ws : Array UInt64) (n k : Nat) : ((grow ws n)[k]?).getD 0 = (ws[k]?).getD 0 := by
  unfold grow
  by_cases hk : k < ws.size
  · rw [Array.getElem?_append_left hk]
  · rw [Array.getElem?_append_right (by omega), Array.getElem?_replicate, Array.getElem?_eq_none (by omega)]
    split <;> rfl

theorem size_grow (ws : Array UInt64) (n : Nat) : n ≤ (grow ws n).size := by
  simp [grow]
  omega

/-- **Setting an index adds it to the set.** -/
theorem isSet_set (c : Coverage) (i j : Nat) : (c.set i).isSet j = (c.isSet j || i == j) := by
  have hi : i % 64 < 64 := Nat.mod_lt i (by omega)
  have hj : j % 64 < 64 := Nat.mod_lt j (by omega)
  have hwords : (c.set i).words = (grow c.words (i / 64 + 1)).modify (i / 64) (· ||| mask (i % 64)) := rfl
  rw [isSet_eq_bit, isSet_eq_bit, hwords, Array.getElem?_modify]
  by_cases hword : i / 64 = j / 64
  · have hsize : j / 64 < (grow c.words (i / 64 + 1)).size := by
      have := size_grow c.words (i / 64 + 1)
      omega
    have hold := getD_grow c.words (i / 64 + 1) (j / 64)
    rw [if_pos hword, ← hold, Array.getElem?_eq_getElem hsize]
    simp only [Option.map_some, Option.getD_some]
    rw [bit_or_mask hi hj]
    congr 1
    rw [Bool.eq_iff_iff, beq_iff_eq, beq_iff_eq]
    omega
  · have hne : (i == j) = false := by
      rw [beq_eq_false_iff_ne]
      rintro rfl
      exact hword rfl
    rw [if_neg hword, getD_grow, hne, Bool.or_false]

/-- Nothing is set after a reset. -/
theorem isSet_reset (c : Coverage) (i : Nat) : c.reset.isSet i = false := by
  have hwords : c.reset.words = c.words.map fun _ => 0 := by
    unfold reset words
    cases c.bitmap with
    | none => simp
    | some ws => rfl
  rw [isSet_eq_bit, hwords, Array.getElem?_map]
  cases c.words[i / 64]? with
  | none => exact bit_zero (Nat.mod_lt i (by omega))
  | some w => exact bit_zero (Nat.mod_lt i (by omega))

theorem isSet_copy (c : Coverage) (i : Nat) : c.copy.isSet i = c.isSet i := rfl

theorem isSet_empty (i : Nat) : isSet {} i = false := rfl

/-- There are words for all members. -/
theorem lt_of_isSet {c : Coverage} {i : Nat} (h : c.isSet i = true) : i < c.words.size * 64 := by
  unfold isSet at h
  split at h
  · next w hw =>
    have := (Array.getElem?_eq_some_iff.mp hw).1
    omega
  · cases h

/-! ## Visiting -/

/-- The members whose bits are in word number `k`. -/
def membersOf (k : Nat) (w : UInt64) : List Nat := ((List.range 64).filter (bit w)).map (k * 64 + ·)

theorem membersOf_zero (k : Nat) : membersOf k 0 = [] := by
  rw [membersOf, List.filter_eq_nil_iff.mpr, List.map_nil]
  intro j hj
  rw [bit_zero (List.mem_range.mp hj)]
  simp

theorem bit_clear {i j : Nat} (hi : i < 64) (hj : j < 64) (w : UInt64) :
    bit (clear w j) i = (bit w i && i != j) := by
  rw [bit_eq hi, bit_eq hi, getLsbD_clear hj]

/-- The lowest set bit is the first member, and the others are those of the word without it. -/
theorem membersOf_cons {w : UInt64} (hw : w ≠ 0) (k : Nat) :
    membersOf k w = (k * 64 + trailingZeros w) :: membersOf k (clear w (trailingZeros w)) := by
  have hlt := trailingZeros_lt hw
  have hlow : ∀ i < trailingZeros w, bit w i = false := fun i hi => by
    rw [bit_eq (by omega)]
    exact BitVec.getLsbD_false_of_lt_ctz hi
  have hset : bit w (trailingZeros w) = true := by
    rw [bit_eq hlt]
    exact BitVec.getLsbD_true_ctz_of_ne_zero (toBitVec_ne_zero hw)
  generalize trailingZeros w = j at hlt hlow hset ⊢
  -- the bits of a word are those below `j`, bit `j` and those above
  obtain ⟨d, hd⟩ : ∃ d, 64 = j + (d + 1) := ⟨64 - j - 1, by omega⟩
  have hrange : List.range 64 = List.range j ++ j :: (List.range d).map fun i => j + (i + 1) := by
    rw [hd, List.range_add, List.range_succ_eq_map, List.map_cons, List.map_map]
    rfl
  have hbelow (v : UInt64) (hv : ∀ i < j, bit v i = false) : (List.range j).filter (bit v) = [] := by
    refine List.filter_eq_nil_iff.mpr fun i hi => ?_
    rw [hv i (List.mem_range.mp hi)]
    simp
  have habove : ((List.range d).map fun i => j + (i + 1)).filter (bit w) =
      ((List.range d).map fun i => j + (i + 1)).filter (bit (clear w j)) := by
    refine List.filter_congr fun i hi => ?_
    obtain ⟨e, he, rfl⟩ := List.mem_map.mp hi
    have he' : j + (e + 1) < 64 := by
      have := List.mem_range.mp he
      omega
    have hne : (j + (e + 1) != j) = true := by simp
    rw [bit_clear he' hlt, hne, Bool.and_true]
  have hcleared : bit (clear w j) j = false := by
    rw [bit_clear hlt hlt]
    simp
  have hbelow' : ∀ i < j, bit (clear w j) i = false := fun i hi => by
    rw [bit_clear (by omega) hlt, hlow i hi, Bool.false_and]
  rw [membersOf, membersOf, hrange, List.filter_append, List.filter_append, hbelow w hlow, hbelow _ hbelow',
    List.filter_cons_of_pos hset, List.filter_cons_of_neg (by rw [hcleared]; simp), habove, List.nil_append,
    List.nil_append, List.map_cons]

section Visit

variable {σ : Type} (f : σ → Nat → σ × Bool)

/-- Shows the entries of a list to a visitor, until it has seen enough, and tells whether it wants more. -/
def showUntil : List Nat → σ → σ × Bool
  | [], s => (s, true)
  | i :: is, s =>
    match f s i with
    | (s, true) => showUntil is s
    | (s, false) => (s, false)

theorem showUntil_append (is js : List Nat) (s : σ) : showUntil f (is ++ js) s =
    match showUntil f is s with
    | (s, true) => showUntil f js s
    | (s, false) => (s, false) := by
  induction is generalizing s with
  | nil => rfl
  | cons i is ih =>
    rw [List.cons_append, showUntil, showUntil]
    split
    · exact ih _
    · rfl

/-- Going from lowest bit to lowest bit, a visitor is shown the members in a word. -/
theorem visitWord_eq (k : Nat) (w : UInt64) (s : σ) : visitWord f k w s = showUntil f (membersOf k w) s := by
  fun_induction visitWord f k w s with
  | case1 s => rw [membersOf_zero, showUntil]
  | case2 w s hw s' hf ih => rw [membersOf_cons hw, showUntil, hf, ih]
  | case3 w s hw s' hf => rw [membersOf_cons hw, showUntil, hf]

theorem visitWords_eq (k : Nat) (ws : List UInt64) (s : σ) :
    visitWords f k ws s = showUntil f ((ws.zipIdx k).flatMap fun p => membersOf p.2 p.1) s := by
  induction ws generalizing k s with
  | nil => rfl
  | cons w ws ih =>
    rw [visitWords, List.zipIdx_cons, List.flatMap_cons, showUntil_append, visitWord_eq]
    dsimp only
    rcases showUntil f (membersOf k w) s with ⟨s', _ | _⟩
    · rfl
    · exact ih (k + 1) s'

/-- A visitor that always wants more folds over everything. -/
theorem showUntil_fold (g : σ → Nat → σ) (is : List Nat) (s : σ) :
    showUntil (fun s i => (g s i, true)) is s = (is.foldl g s, true) := by
  induction is generalizing s with
  | nil => rfl
  | cons i is ih => exact ih (g s i)

theorem toList_eq_flatMap (c : Coverage) :
    c.toList = c.words.toList.zipIdx.flatMap fun p => membersOf p.2 p.1 := by
  rw [toList, visit, visitWords_eq, showUntil_fold, List.foldl_flip_cons_eq_append, List.map_id', List.append_nil,
    List.reverse_reverse]

/-- **A visitor is shown the list of the members.** -/
theorem visit_eq (c : Coverage) (s : σ) : c.visit f s = (showUntil f c.toList s).1 := by
  rw [visit, visitWords_eq, toList_eq_flatMap]

end Visit

/-! ## Members in order -/

theorem membersOf_eq (k : Nat) (w : UInt64) :
    membersOf k w = ((List.range 64).map (k * 64 + ·)).filter fun i => bit w (i % 64) := by
  rw [membersOf, List.filter_map]
  congr 1
  refine List.filter_congr fun j hj => ?_
  have hlt : j < 64 := List.mem_range.mp hj
  have hmod : (k * 64 + j) % 64 = j := by omega
  simp [hmod]

/-- **The members are the indexes that are set, in ascending order.** -/
theorem toList_eq (c : Coverage) : c.toList = (List.range (c.words.size * 64)).filter c.isSet := by
  -- word by word, from the first one on
  have hwords : ∀ ws : List UInt64, (ws.zipIdx.flatMap fun p => membersOf p.2 p.1) =
      (List.range (ws.length * 64)).filter fun i => bit ((ws[i / 64]?).getD 0) (i % 64) := by
    intro ws
    induction ws using List.reverseRecOn with
    | nil => rfl
    | append_singleton ws w ih =>
      rw [List.zipIdx_append, List.flatMap_append, ih, List.length_append, List.length_singleton, Nat.add_mul,
        List.range_add, List.filter_append, Nat.zero_add, Nat.one_mul]
      congr 1
      · refine List.filter_congr fun i hi => ?_
        have hlt : i / 64 < ws.length := by
          have := List.mem_range.mp hi
          omega
        rw [List.getElem?_append_left hlt]
      · rw [List.zipIdx_singleton, List.flatMap_singleton, membersOf_eq]
        refine List.filter_congr fun i hi => ?_
        obtain ⟨j, hj, rfl⟩ := List.mem_map.mp hi
        have hdiv : (ws.length * 64 + j) / 64 = ws.length := by
          have := List.mem_range.mp hj
          omega
        rw [hdiv, List.getElem?_append_right (Nat.le_refl _), Nat.sub_self]
        rfl
  rw [toList_eq_flatMap, hwords, Array.length_toList]
  refine List.filter_congr fun i _ => ?_
  rw [isSet_eq_bit, Array.getElem?_toList]

theorem pairwise_toList (c : Coverage) : c.toList.Pairwise (· < ·) := by
  rw [toList_eq]
  exact List.pairwise_lt_range.filter _

theorem mem_toList {c : Coverage} {i : Nat} : i ∈ c.toList ↔ c.isSet i = true := by
  rw [toList_eq, List.mem_filter, List.mem_range]
  exact and_iff_right_of_imp lt_of_isSet

theorem size_eq_length (c : Coverage) : c.size = c.toList.length := by
  have hwords : ∀ ws : List UInt64, ws.foldl (fun n w => n + popCount w) 0 =
      (ws.zipIdx.flatMap fun p => membersOf p.2 p.1).length := by
    intro ws
    induction ws using List.reverseRecOn with
    | nil => rfl
    | append_singleton ws w ih =>
      rw [List.foldl_append, ih, List.zipIdx_append, List.flatMap_append, List.length_append,
        List.zipIdx_singleton, List.flatMap_singleton, membersOf, List.length_map, ← List.countP_eq_length_filter]
      rfl
  rw [size, toList_eq_flatMap, ← hwords, Array.foldl_toList]

/-- Counting up to any bound gives the same. -/
theorem countP_range_eq {p : Nat → Bool} {a b : Nat} (ha : ∀ i, p i = true → i < a)
    (hb : ∀ i, p i = true → i < b) :
    (List.range a).countP p = (List.range b).countP p := by
  have hle : ∀ a b : Nat, a ≤ b → (∀ i, p i = true → i < a) →
      (List.range a).countP p = (List.range b).countP p := by
    intro a b hab ha
    obtain ⟨d, rfl⟩ := Nat.exists_eq_add_of_le hab
    have hzero : ((List.range d).map (a + ·)).countP p = 0 := by
      rw [List.countP_eq_zero]
      intro i hi hset
      obtain ⟨j, -, rfl⟩ := List.mem_map.mp hi
      have := ha _ hset
      omega
    rw [List.range_add, List.countP_append, hzero, Nat.add_zero]
  rcases Nat.le_total a b with hab | hba
  · exact hle a b hab ha
  · exact (hle b a hba hb).symm

/-- **`size` is the number of members**, which may be counted up to any bound on them. -/
theorem size_eq_countP {c : Coverage} {n : Nat} (h : ∀ i, c.isSet i = true → i < n) :
    c.size = (List.range n).countP c.isSet := by
  rw [size_eq_length, toList_eq, ← List.countP_eq_length_filter]
  exact countP_range_eq (fun _ => lt_of_isSet) h

end RegisterMachine.Coverage
