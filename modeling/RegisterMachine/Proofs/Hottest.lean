import RegisterMachine.Machine.Profile

/-!
# The most often executed instructions

A profile is what a heap gives back of the executed instructions.  Nothing is assumed of the heap but that the
element it gives back comes first among those that were put in and not yet taken out.

* `Heap.Reached h s xs`: the elements `xs` were put into the store `s` and not yet taken out.
* `Heap.PopsFirst h before`: the element that comes out has none before it.
* `Heap.drain_eq_take`: such a heap gives back a beginning of the elements in order.
* `Machine.Ranking m all`: `all` are the executed instructions of `m`, the most often executed first and ties by
  index.
* `Machine.profile_ranked`: a profile is a beginning of the ranking, whichever heap is used.
-/

namespace RegisterMachine

/-! ## Heaps that give back what comes first -/

namespace Heap

variable {α : Type} {h : Heap α} {before : α → α → Bool}

/-- The elements that were put into a store and not yet taken out, in some order. -/
inductive Reached (h : Heap α) : h.Store → List α → Prop
  | empty : Reached h h.empty []
  | push {s : h.Store} {xs : List α} (x : α) : Reached h s xs → Reached h (h.push s x) (x :: xs)
  | pop {s t : h.Store} {xs ys : List α} {x : α} :
      Reached h s xs → h.pop? s = some (x, t) → xs.Perm (x :: ys) → Reached h t ys

/-- A heap that counts its elements and gives back one of them that has no other before it. -/
structure PopsFirst (h : Heap α) (before : α → α → Bool) : Prop where
  size {s : h.Store} {xs : List α} : Reached h s xs → h.size s = xs.length
  pop {s : h.Store} {xs : List α} : Reached h s xs → xs ≠ [] →
    ∃ x t, h.pop? s = some (x, t) ∧ x ∈ xs ∧ ∀ y ∈ xs, before y x = false

theorem Reached.foldl_push {s : h.Store} {ys : List α} (hs : Reached h s ys) (xs : List α) :
    Reached h (xs.foldl h.push s) (xs.reverse ++ ys) := by
  induction xs generalizing s ys with
  | nil => exact hs
  | cons x xs ih =>
    rw [List.reverse_cons, List.append_assoc]
    exact ih (hs.push x)

theorem reached_fill (xs : List α) : Reached h (h.fill xs) xs.reverse := by
  have hs := Reached.foldl_push (h := h) .empty xs
  rwa [List.append_nil] at hs

/-- **A heap gives back a beginning of its elements in order.**  Where each of the elements has all later ones
behind it, the one that comes out can only be the first of them. -/
theorem drain_eq_take (hh : h.PopsFirst before) {s : h.Store} {xs all : List α} (hs : Reached h s xs)
    (hperm : xs.Perm all) (hall : all.Pairwise fun a b => before a b = true) {n : Nat} (hn : n ≤ all.length) :
    h.drain n s = all.take n := by
  induction n generalizing s xs all with
  | zero => rw [drain, List.take_zero]
  | succ n ih =>
    cases all with
    | nil => simp at hn
    | cons a all =>
      obtain ⟨ha, hrest⟩ := List.pairwise_cons.mp hall
      have hne : xs ≠ [] := fun he => absurd (he ▸ hperm).length_eq (by simp)
      obtain ⟨x, t, hpop, hx, hfirst⟩ := hh.pop hs hne
      have hxa : x = a := by
        rcases List.mem_cons.mp (hperm.subset hx) with hxa | hlater
        · exact hxa
        · have hlast := hfirst a (hperm.symm.subset List.mem_cons_self)
          rw [ha x hlater] at hlast
          cases hlast
      subst hxa
      rw [drain, hpop]
      dsimp only
      rw [List.take_succ_cons, ih (hs.pop hpop hperm) .rfl hrest (Nat.le_of_succ_le_succ hn)]

/-! ## The heap that keeps its elements in order -/

theorem place_perm (before : α → α → Bool) (x : α) (xs : List α) : (place before x xs).Perm (x :: xs) := by
  induction xs with
  | nil => exact .rfl
  | cons y xs ih =>
    rw [place]
    split
    · exact (ih.cons y).trans (.swap x y xs)
    · exact .rfl

/-- What is asked of an order: it goes one way only, and what is not before something is not before anything that
comes earlier still. -/
structure Orders (before : α → α → Bool) : Prop where
  asymm {a b : α} : before a b = true → before b a = false
  trans {a b c : α} : before b a = false → before c b = false → before c a = false

theorem place_sorted (hb : Orders before) (x : α) {xs : List α} (h : xs.Pairwise fun a b => before b a = false) :
    (place before x xs).Pairwise fun a b => before b a = false := by
  induction xs with
  | nil => exact List.pairwise_singleton _ x
  | cons y xs ih =>
    obtain ⟨hy, hxs⟩ := List.pairwise_cons.mp h
    rw [place]
    split
    · next hyx =>
      refine List.pairwise_cons.mpr ⟨fun z hz => ?_, ih hxs⟩
      rcases List.mem_cons.mp ((place_perm before x xs).subset hz) with rfl | hz
      · exact hb.asymm hyx
      · exact hy z hz
    · next hyx =>
      have hyx : before y x = false := Bool.eq_false_iff.mpr hyx
      refine List.pairwise_cons.mpr ⟨fun z hz => ?_, h⟩
      rcases List.mem_cons.mp hz with rfl | hz
      · exact hyx
      · exact hb.trans hyx (hy z hz)

/-- The store is the list of the elements in order. -/
theorem Reached.sorted (hb : Orders before) {s : (ordered before).Store} {xs : List α}
    (h : Reached (ordered before) s xs) :
    List.Perm s xs ∧ List.Pairwise (fun a b => before b a = false) s := by
  induction h with
  | empty => exact ⟨.rfl, .nil⟩
  | push x _ ih => exact ⟨(place_perm before x _).trans (ih.1.cons x), place_sorted hb x ih.2⟩
  | @pop s t xs ys x _ hpop hperm ih =>
    cases s with
    | nil => cases hpop
    | cons y s =>
      obtain ⟨rfl, rfl⟩ := Prod.mk.inj (Option.some.inj hpop)
      exact ⟨(ih.1.trans hperm).cons_inv, (List.pairwise_cons.mp ih.2).2⟩

theorem ordered_popsFirst (hb : Orders before) : (ordered before).PopsFirst before where
  size hs := (hs.sorted hb).1.length_eq
  pop {s xs} hs hne := by
    obtain ⟨hperm, hsorted⟩ := hs.sorted hb
    cases s with
    | nil => exact absurd hperm.symm.eq_nil hne
    | cons x s =>
      refine ⟨x, s, rfl, hperm.subset List.mem_cons_self, fun y hy => ?_⟩
      rcases List.mem_cons.mp (hperm.symm.subset hy) with rfl | hy
      · exact Bool.eq_false_iff.mpr fun hyy => absurd (hb.asymm hyy) (by simp [hyy])
      · exact (List.pairwise_cons.mp hsorted).1 y hy

end Heap

/-! ## Rankings -/

theorem Hot.before_iff {a b : Hot} :
    a.before b = true ↔ b.count < a.count ∨ (a.count = b.count ∧ a.index < b.index) := by
  unfold Hot.before
  split
  · next h =>
    rw [bne_iff_ne] at h
    simp [h]
  · next h =>
    have h : a.count = b.count := by simpa using h
    simp [h]

theorem Hot.orders_before : Heap.Orders Hot.before where
  asymm h := by
    rw [Hot.before_iff] at h
    rw [Bool.eq_false_iff, ne_eq, Hot.before_iff]
    omega
  trans hba hcb := by
    rw [Bool.eq_false_iff, ne_eq, Hot.before_iff] at hba hcb ⊢
    omega

namespace Machine

variable {m : Machine} {all : List Hot}

/-- The executed instructions, each with its own index, count and text, the most often executed first and ties by
index. -/
structure Ranking (m : Machine) (all : List Hot) : Prop where
  mem (e : Hot) : e ∈ all ↔ ∃ ins, m.program.instructions[e.index]? = some ins ∧
    m.state.counts[e.index]? = some e.count ∧ 0 < e.count ∧ e.text = ins.text
  sorted : all.Pairwise fun a b => b.count < a.count ∨ (a.count = b.count ∧ a.index < b.index)

theorem mem_executedInstructions (e : Hot) : e ∈ m.executedInstructions ↔
    ∃ ins, m.program.instructions[e.index]? = some ins ∧ m.state.counts[e.index]? = some e.count ∧
      0 < e.count ∧ e.text = ins.text := by
  simp only [executedInstructions, List.mem_filter, List.mem_map, bne_iff_ne]
  constructor
  · rintro ⟨⟨⟨ins, i⟩, hi, rfl⟩, hcount⟩
    rw [List.mem_zipIdx_iff_getElem?, Array.getElem?_toList] at hi
    dsimp only at hi hcount ⊢
    refine ⟨ins, hi, ?_, Nat.pos_of_ne_zero hcount, rfl⟩
    cases hc : m.state.counts[i]? with
    | none => rw [hc] at hcount; exact absurd rfl hcount
    | some c => rfl
  · rintro ⟨ins, hins, hcount, hpos, htext⟩
    refine ⟨⟨(ins, e.index), ?_, ?_⟩, Nat.ne_of_gt hpos⟩
    · rw [List.mem_zipIdx_iff_getElem?, Array.getElem?_toList]
      exact hins
    · rw [hcount, ← htext]
      rfl

/-- No index occurs twice. -/
theorem executedInstructions_distinct (m : Machine) :
    m.executedInstructions.Pairwise fun a b => a.index ≠ b.index := by
  have hzip : (m.program.instructions.toList.zipIdx.map (·.2)).Nodup := by
    rw [List.zipIdx_map_snd]
    exact List.nodup_range'
  rw [List.Nodup, List.pairwise_map] at hzip
  rw [executedInstructions]
  exact List.Pairwise.filter _ (List.pairwise_map.mpr hzip)

theorem Ranking.perm (h : m.Ranking all) : m.executedInstructions.Perm all := by
  have hall : all.Nodup := h.sorted.imp fun hab he => by subst he; omega
  have hexecuted : m.executedInstructions.Nodup :=
    m.executedInstructions_distinct.imp fun hab he => hab (congrArg Hot.index he)
  rw [List.perm_ext_iff_of_nodup hexecuted hall]
  intro e
  rw [mem_executedInstructions, h.mem]

/-- The ordered heap keeps the executed instructions as a ranking. -/
theorem exists_ranking (m : Machine) : ∃ all, m.Ranking all := by
  obtain ⟨hperm, hsorted⟩ := (Heap.reached_fill m.executedInstructions).sorted Hot.orders_before
  have hperm := hperm.trans (List.reverse_perm _)
  refine ⟨(Heap.ordered Hot.before).fill m.executedInstructions, fun e => ?_, ?_⟩
  · rw [← mem_executedInstructions]
    exact hperm.mem_iff
  · have hdistinct := hperm.symm.pairwise m.executedInstructions_distinct fun hab => hab.symm
    refine (hsorted.and hdistinct).imp fun ⟨hab, hne⟩ => ?_
    rw [Bool.eq_false_iff, ne_eq, Hot.before_iff] at hab
    omega

/-- Whatever the heap, it gives back a beginning of the ranking. -/
theorem Ranking.drain_eq (h : m.Ranking all) {heap : Heap Hot} (hheap : heap.PopsFirst Hot.before) {n : Nat}
    (hn : n ≤ all.length) : heap.drain n (heap.fill m.executedInstructions) = all.take n :=
  Heap.drain_eq_take hheap (Heap.reached_fill _) ((List.reverse_perm _).trans h.perm)
    (h.sorted.imp fun hab => Hot.before_iff.mpr hab) hn

theorem Ranking.profileBy_eq (h : m.Ranking all) {heap : Heap Hot} (hheap : heap.PopsFirst Hot.before) (n : Int) :
    m.profileBy heap n = if 0 < n ∧ n < all.length then all.take n.toNat else all := by
  have hsize : heap.size (heap.fill m.executedInstructions) = all.length := by
    rw [hheap.size (Heap.reached_fill _), List.length_reverse, h.perm.length_eq]
  have hall : heap.drain all.length (heap.fill m.executedInstructions) = all := by
    rw [h.drain_eq hheap (Nat.le_refl _), List.take_length]
  rw [profileBy, hsize]
  split
  · next hn =>
    rw [hall]
    split
    · next hcut => simp at hn; omega
    · rfl
  · next hn =>
    simp only [Bool.or_eq_true, decide_eq_true_eq, not_or, Int.not_le, Int.not_lt] at hn
    rw [h.drain_eq hheap (by omega)]
    split
    · rfl
    · exact List.take_of_length_le (by omega)

/-- The whole profile has every executed instruction once. -/
theorem profile_perm (m : Machine) : (m.profile 0).Perm m.executedInstructions := by
  obtain ⟨all, hall⟩ := m.exists_ranking
  rw [profile, hall.profileBy_eq (Heap.ordered_popsFirst Hot.orders_before), if_neg (by omega)]
  exact hall.perm.symm

/-- There is one ranking only, for any heap gives it back as a whole. -/
theorem Ranking.unique {other : List Hot} (h : m.Ranking all) (ho : m.Ranking other) : other = all := by
  have hheap := Heap.ordered_popsFirst Hot.orders_before
  have hall := h.profileBy_eq hheap 0
  rw [ho.profileBy_eq hheap 0] at hall
  simpa using hall

/-- **A profile is the beginning of the ranking of the executed instructions.**  There is exactly one list of the
executed instructions, each with its own index, count and text, that is sorted by count, the greater first, and
then by index.  With any heap that gives back what comes first, the profile is the first `n` of them if `n` is
positive and less than their number, and else all of them. -/
theorem profile_ranked {heap : Heap Hot} (hheap : heap.PopsFirst Hot.before) (m : Machine) (n : Int) :
    ∃ all, m.Ranking all ∧ (∀ other, m.Ranking other → other = all) ∧
      m.profileBy heap n = (if 0 < n ∧ n < all.length then all.take n.toNat else all) ∧
      m.profile n = m.profileBy heap n := by
  obtain ⟨all, hall⟩ := m.exists_ranking
  refine ⟨all, hall, fun other ho => hall.unique ho, hall.profileBy_eq hheap n, ?_⟩
  rw [hall.profileBy_eq hheap, profile, hall.profileBy_eq (Heap.ordered_popsFirst Hot.orders_before)]

/-- Seven steps through a loop behind a first instruction.  The instructions of the loop were executed equally
often, and the last one of the program never. -/
theorem profile_ranked_loop : (Heap.ordered Hot.before).PopsFirst Hot.before ∧ ∃ controller m,
    Source.readOne
      [⟨[], utf8 "((assign x (const 1)) on (save x) (assign x (reg y)) (goto (label on)) (restore y))"⟩]
      .form = (some controller, none) ∧
    Machine.create 0 [utf8 "x", utf8 "y"] {} {} controller = .ok m ∧
    (m.run 7).2.2.Ranking [⟨1, 2, utf8 "(save x)"⟩, ⟨2, 2, utf8 "(assign x (reg y))"⟩,
      ⟨3, 2, utf8 "(goto (label on))"⟩, ⟨0, 1, utf8 "(assign x (const 1))"⟩] ∧
    (m.run 7).2.2.profile 2 = [⟨1, 2, utf8 "(save x)"⟩, ⟨2, 2, utf8 "(assign x (reg y))"⟩] := by
  have hheap := Heap.ordered_popsFirst Hot.orders_before
  obtain ⟨controller, m, hread, hcreate, hwhole⟩ : ∃ controller m,
      Source.readOne
        [⟨[], utf8 "((assign x (const 1)) on (save x) (assign x (reg y)) (goto (label on)) (restore y))"⟩]
        .form = (some controller, none) ∧
      Machine.create 0 [utf8 "x", utf8 "y"] {} {} controller = .ok m ∧
      (m.run 7).2.2.profile (-1) = [⟨1, 2, utf8 "(save x)"⟩, ⟨2, 2, utf8 "(assign x (reg y))"⟩,
        ⟨3, 2, utf8 "(goto (label on))"⟩, ⟨0, 1, utf8 "(assign x (const 1))"⟩] := ⟨_, _, rfl, rfl, rfl⟩
  obtain ⟨all, hall, -, hby, hprofile⟩ := profile_ranked hheap (m.run 7).2.2 (-1)
  obtain ⟨all', hall', -, hby', hprofile'⟩ := profile_ranked hheap (m.run 7).2.2 2
  rw [hprofile, hby, if_neg (by omega)] at hwhole
  obtain rfl := hall'.unique hall
  subst hwhole
  refine ⟨hheap, controller, m, hread, hcreate, hall, ?_⟩
  rw [hprofile', hby']
  rfl

end Machine

end RegisterMachine
