import Mathlib.Data.Finset.Sort
import Mathlib.Data.List.DropRight
import RegisterMachine.Proofs.CoverageSet
import RegisterMachine.Proofs.CoverageStore

/-!
# Edits of bitmaps

Bitmaps that are written, reset and copied over each other in any order are sets of numbers.

* `Coverage.lineage`: the changes of a bitmap since it was empty.  Those before a copy are the changes of the
  bitmap that was copied.
* `Coverage.written`: the indexes that are set and not reset afterwards.
* `Coverage.Holds`: a bitmap answers every question as a set of numbers does.  `Coverage.holds_of_isSet` says that
  the members decide that.
* `Coverage.edited_holds_written`: a bitmap holds what was written to it, and a copy of it still holds that
  whatever happens to others.
-/

namespace RegisterMachine.Coverage

/-! ## What was written -/

/-- The changes of the bitmap that an edit puts there, from those of the bitmaps before. -/
def Edit.past (hs : Nat → List Change) : Edit → List Change
  | .change k ch => hs k ++ [ch]
  | .copy source _ => hs source

/-- The changes that made a bitmap what it is. -/
def lineage (es : List Edit) : Nat → List Change :=
  es.foldl (fun hs e => Function.update hs e.target (e.past hs)) fun _ => []

def Change.index? : Change → Option Nat
  | .set i => some i
  | .reset => none

/-- The indexes that were set since the last reset. -/
def written (h : List Change) : Finset Nat := ((h.rtakeWhile (· != .reset)).filterMap Change.index?).toFinset

theorem lineage_concat (es : List Edit) (e : Edit) :
    lineage (es ++ [e]) = Function.update (lineage es) e.target (e.past (lineage es)) :=
  List.foldl_concat ..

theorem mem_written_set (h : List Change) (i j : Nat) : j ∈ written (h ++ [.set i]) ↔ j ∈ written h ∨ i = j := by
  have hkeep : (h ++ [Change.set i]).rtakeWhile (· != .reset) = h.rtakeWhile (· != .reset) ++ [.set i] :=
    List.rtakeWhile_concat_pos _ _ _ (by simp)
  have hindex : [Change.set i].filterMap Change.index? = [i] := rfl
  rw [written, hkeep, List.filterMap_append, hindex, List.toFinset_append, Finset.mem_union, ← written]
  simp [eq_comm]

theorem written_reset (h : List Change) : written (h ++ [.reset]) = ∅ := by
  have hdrop : (h ++ [Change.reset]).rtakeWhile (· != .reset) = [] :=
    List.rtakeWhile_concat_neg _ _ _ (by simp)
  rw [written, hdrop]
  rfl

theorem Change.isSet_apply {c : Coverage} {h : List Change} (hc : ∀ i, c.isSet i = true ↔ i ∈ written h)
    (ch : Change) (i : Nat) : (ch.apply c).isSet i = true ↔ i ∈ written (h ++ [ch]) := by
  cases ch with
  | set j => rw [Change.apply, isSet_set, mem_written_set, ← hc, Bool.or_eq_true, beq_iff_eq]
  | reset =>
    rw [Change.apply, isSet_reset, written_reset]
    simp

/-- What is set is what was written: one edit. -/
theorem Edit.isSet_made {cs : Nat → Coverage} {hs : Nat → List Change}
    (hc : ∀ k i, (cs k).isSet i = true ↔ i ∈ written (hs k)) (e : Edit) (i : Nat) :
    (e.made cs).isSet i = true ↔ i ∈ written (e.past hs) := by
  cases e with
  | change k ch => exact ch.isSet_apply (hc k) i
  | copy source k => exact hc source i

/-- What is set is what was written, after any edits. -/
theorem isSet_edited (es : List Edit) (k i : Nat) : (edited es k).isSet i = true ↔ i ∈ written (lineage es k) := by
  induction es using List.reverseRecOn generalizing k i with
  | nil =>
    refine iff_of_false ?_ (List.not_mem_nil ∘ List.mem_toFinset.mp)
    rw [edited, List.foldl_nil, isSet_empty]
    simp
  | append_singleton es e ih =>
    rw [edited_concat, lineage_concat]
    by_cases hk : k = e.target
    · rw [hk, Function.update_self, Function.update_self]
      exact e.isSet_made ih i
    · rw [Function.update_of_ne hk, Function.update_of_ne hk]
      exact ih k i

/-- Edits of other bitmaps leave a bitmap as it is. -/
theorem edited_append_of_ne (es : List Edit) {es' : List Edit} {k : Nat} (h : ∀ e ∈ es', e.target ≠ k) :
    edited (es ++ es') k = edited es k := by
  induction es' using List.reverseRecOn with
  | nil => rw [List.append_nil]
  | append_singleton es' e ih =>
    rw [← List.append_assoc, edited_concat, Function.update_of_ne (h e (by simp)).symm]
    exact ih fun e' he' => h e' (by simp [he'])

/-! ## Answers of a set -/

/-- A visitor that lists what it sees and has seen enough at its `n`-th call. -/
def listUpTo (n : Nat) (seen : List Nat) (i : Nat) : List Nat × Bool := (seen ++ [i], seen.length + 1 != n)

theorem showUntil_listUpTo {n : Nat} (is seen : List Nat) (h : seen.length < n) :
    (showUntil (listUpTo n) is seen).1 = seen ++ is.take (n - seen.length) := by
  induction is generalizing seen with
  | nil => rw [List.take_nil, List.append_nil, showUntil]
  | cons i is ih =>
    obtain ⟨d, hd⟩ : ∃ d, n - seen.length = d + 1 := ⟨n - seen.length - 1, by omega⟩
    have hlength : (seen ++ [i]).length = seen.length + 1 := List.length_append
    rw [hd, List.take_succ_cons, showUntil, listUpTo]
    by_cases hlast : seen.length + 1 = n
    · have hstop : (seen.length + 1 != n) = false := by simp [hlast]
      obtain rfl : d = 0 := by omega
      rw [hstop, List.take_zero]
    · have hgo : (seen.length + 1 != n) = true := by simp [hlast]
      have hrest : n - (seen ++ [i]).length = d := by omega
      rw [hgo]
      dsimp only
      rw [ih _ (by omega), hrest, List.append_assoc]
      rfl

/-- A bitmap is a set of numbers, in all that it tells: which numbers are in it and how many, which ones a visitor
is shown and in which order, and which ones below a bound are missing. -/
structure Holds (c : Coverage) (S : Finset Nat) : Prop where
  isSet : ∀ i, c.isSet i = true ↔ i ∈ S
  size : c.size = S.card
  visit : ∀ {σ : Type} (f : σ → Nat → σ × Bool) (s : σ), c.visit f s = (showUntil f S.sort s).1
  toList : c.toList = S.sort
  visit_upTo : ∀ n, 0 < n → c.visit (listUpTo n) [] = S.sort.take n
  missing : ∀ n, c.missing n = (Finset.range n \ S).sort

theorem eq_sort {l : List Nat} {S : Finset Nat} (hl : l.Pairwise (· < ·)) (h : ∀ i, i ∈ l ↔ i ∈ S) : l = S.sort :=
  hl.sortedLT.eq_of_mem_iff S.sortedLT_sort fun i => (h i).trans (Finset.mem_sort _).symm

theorem holds_of_isSet {c : Coverage} {S : Finset Nat} (h : ∀ i, c.isSet i = true ↔ i ∈ S) : Holds c S := by
  have hsort : c.toList = S.sort := eq_sort c.pairwise_toList fun i => mem_toList.trans (h i)
  refine ⟨h, ?_, ?_, hsort, ?_, ?_⟩
  · rw [size_eq_length, hsort, Finset.length_sort]
  · intro σ f s
    rw [visit_eq, hsort]
  · intro n hn
    rw [visit_eq, hsort, showUntil_listUpTo _ _ hn]
    rfl
  · intro n
    refine eq_sort (List.pairwise_lt_range.filter _) fun i => ?_
    rw [missing, List.mem_filter, List.mem_range, Finset.mem_sdiff, Finset.mem_range, Bool.not_eq_true',
      ← Bool.not_eq_true, h]

/-- **A bitmap is the set of the indexes written since its last reset**, and a copy of it stays that set, whatever
is done to other bitmaps afterwards.  This is so of slices that are written in place, too: no two of them ever
share an array, and each shows the bitmap of its number. -/
theorem edited_holds_written (es : List Edit) (k : Nat) :
    Holds (edited es k) (written (lineage es k)) ∧
      (∀ (aside : Nat) (es' : List Edit), (∀ e ∈ es', e.target ≠ aside) →
        Holds (edited (es ++ Edit.copy k aside :: es') aside) (written (lineage es k))) ∧
      ∀ spare, (Store.stored spare es).Separate ∧ (Store.stored spare es).bitmap = edited es := by
  refine ⟨holds_of_isSet (isSet_edited es k), fun aside es' h => ?_, fun spare => Store.stored_separate spare es⟩
  have hcopy : edited (es ++ [Edit.copy k aside]) aside = (edited es k).copy := by
    rw [edited_concat, Edit.target, Function.update_self, Edit.made]
  rw [List.append_cons, edited_append_of_ne _ h, hcopy]
  exact holds_of_isSet fun i => by rw [isSet_copy, isSet_edited]

/-- A copy is set aside; then the bitmap is reset, grows and is copied elsewhere.  New arrays have twice the room
that is needed. -/
theorem edited_holds_written_across_words :
    Holds ((Store.stored (fun n => n) ([.change 0 (.set 64), .change 0 .reset, .change 0 (.set 128),
      .change 0 (.set 63)] ++ Edit.copy 0 1 :: [.change 0 .reset, .change 0 (.set 500), .copy 0 2])).bitmap 1)
      {63, 128} := by
  have hlist : written
      (lineage [.change 0 (.set 64), .change 0 .reset, .change 0 (.set 128), .change 0 (.set 63)] 0) =
      {63, 128} := by decide
  rw [((edited_holds_written _ 1).2.2 fun n => n).2, ← hlist]
  exact (edited_holds_written _ 0).2.1 1 _ (by decide)

end RegisterMachine.Coverage
