import RegisterMachine.Proofs.Spans

/-!
# Reading one form and reading all of them

Both ways of reading a source see the same first form or the same first error.  Reading one form differs only in
what it says about the rest: it reports the place where something other than blanks stands behind the form, whether
that is another form or an error.

* `Resumes b i k`: behind the offset `i` the text `b` is blank up to `k`, where something else stands.
* `Laid.resumes`: between two forms the text resumes with the second one.
* `Source.readOne_of_readAll`: what reading all forms tells about reading one.
-/

namespace RegisterMachine

open Syntax

/-! ## Behind a form -/

/-- From the offset `i` on there are only blanks up to the offset `k`, where something else stands. -/
structure Resumes (b : Bytes) (i k : Nat) : Prop where
  le : i ≤ k
  lt : k < b.length
  blanks : Blanks (b.drop i) (b.drop k)
  solid : Solid (b.drop k)

theorem Syntax.Blanks.suffix {s r : Bytes} (h : Blanks s r) : r <:+ s := by
  induction h with
  | nil => exact List.suffix_rfl
  | space _ _ ih => exact ih.trans (List.suffix_cons ..)
  | @comment u s _ _ _ _ ih => exact ih.trans ((List.suffix_append u s).trans (List.suffix_cons ..))

theorem solid_skipBlanks (s : Bytes) : Solid (SpaceSet.all.skipBlanks s) :=
  (blanks_skipBlanks s).skipBlanks_eq.symm

namespace Resumes

variable {b : Bytes} {i k : Nat}

theorem skipBlanks_eq (h : Resumes b i k) : SpaceSet.all.skipBlanks (b.drop i) = b.drop k :=
  h.blanks.skipBlanks_eq.trans h.solid

/-- The place is the only one. -/
theorem unique {k' : Nat} (h : Resumes b i k) (h' : Resumes b i k') : k = k' := by
  have hlen := congrArg List.length (h.skipBlanks_eq.symm.trans h'.skipBlanks_eq)
  rw [List.length_drop, List.length_drop] at hlen
  have := h.lt
  have := h'.lt
  omega

end Resumes

/-- Where blanks do not lead to the end of the text, it resumes behind them. -/
theorem resumes_skipBlanks {b : Bytes} {i : Nat} (h : SpaceSet.all.skipBlanks (b.drop i) ≠ []) :
    Resumes b i (b.length - (SpaceSet.all.skipBlanks (b.drop i)).length) := by
  have hblanks := blanks_skipBlanks (b.drop i)
  have hsolid := solid_skipBlanks (b.drop i)
  have hle := hblanks.suffix.length_le
  have hpos := List.length_pos_iff.mpr h
  have hdrop := List.suffix_iff_eq_drop.mp (hblanks.suffix.trans (List.drop_suffix i b))
  rw [List.length_drop] at hle
  refine ⟨by omega, by omega, ?_, ?_⟩
  · rwa [← hdrop]
  · rwa [← hdrop]

namespace Laid

variable {i : Nat} {u : Bytes} {x y : Form} {l xs : List Form}

/-- A layout starts with a layout of its first forms. -/
theorem cut (h : Laid i u (l ++ xs)) : ∃ v z, u = v ++ z ∧ Laid i v xs := by
  induction l generalizing u with
  | nil => exact ⟨u, [], (List.append_nil u).symm, h⟩
  | cons y l ih =>
    obtain ⟨p, w, g, rfl, hp, -⟩ := h.split_last
    obtain ⟨v, z, rfl, hv⟩ := ih hp
    exact ⟨v, z ++ (w ++ g), List.append_assoc .., hv⟩

/-- **Behind a form the text resumes with the next one.** -/
theorem resumes (h : Laid 0 u [y, x]) (r : Bytes) : Resumes (u ++ r) x.span.stop y.span.start := by
  obtain ⟨p, w, g, rfl, hp, hw, hy, -⟩ := h.split_last
  obtain ⟨p, v, gap, rfl, -, -, hx, hgap⟩ := hp.split_last
  have hpos := List.length_pos_iff.mpr hw.ne_nil
  have htext : p ++ (v ++ gap) ++ (w ++ g) ++ r = (p ++ v) ++ (gap ++ (w ++ (g ++ r))) := by simp
  have hstop : x.span.stop = (p ++ v).length := by rw [hx, List.length_append, Nat.zero_add]
  have hstart : y.span.start = ((p ++ v) ++ gap).length := by rw [hy, Nat.zero_add, List.append_assoc]
  have hfrom : (p ++ (v ++ gap) ++ (w ++ g) ++ r).drop x.span.stop = gap ++ (w ++ (g ++ r)) := by
    rw [htext, hstop, List.drop_left]
  have hto : (p ++ (v ++ gap) ++ (w ++ g) ++ r).drop y.span.start = w ++ (g ++ r) := by
    rw [htext, hstart, ← List.append_assoc (p ++ v), List.drop_left]
  refine ⟨?_, ?_, ?_, ?_⟩
  · rw [hstop, hstart]
    exact (List.sublist_append_left ..).length_le
  · rw [hstart]
    simp only [List.length_append]
    omega
  · rw [hfrom, hto]
    exact hgap.blanks rfl _
  · rw [hto]
    exact (hw.append _).solid

end Laid

/-- Behind the first form the text resumes with the second one. -/
theorem resumes_second {b : Bytes} {x y : Form} {xs : List Form} {e : Option Fault}
    (h : scan b = (x :: y :: xs, e)) : Resumes b x.span.stop y.span.start := by
  obtain ⟨p, v, rfl, hp, -⟩ := scan_layout b
  rw [h] at hp
  have hsplit : (x :: y :: xs).reverse = xs.reverse ++ [y, x] := by simp
  rw [hsplit] at hp
  obtain ⟨u, z, rfl, hu⟩ := hp.cut
  rw [List.append_assoc]
  exact hu.resumes (z ++ v)

/-! ## Sources -/

namespace Source

theorem scan_of_readAll {s : Source} {xs : List Form} {e : Option SyntaxError} (h : s.readAll = (xs, e)) :
    ∃ fault, scan s.text = (xs, fault) ∧ e = fault.map fun f => s.problemAt f.offset (.unreadable f.error) := by
  obtain ⟨rfl, rfl⟩ := Prod.mk.inj h
  exact ⟨_, rfl, rfl⟩

/-- **Reading one form agrees with reading all.**  If the source has no form and no error, reading one form fails
at its end, because the text has ended.  If it has an error and no form before it, reading one form fails with this
error.  If it has a single form and no error, this form is read.  In all other cases the first form is given beside
the offset at which something stands behind it and behind blanks: the start of the second form, if there is one. -/
theorem readOne_of_readAll (s : Source) :
    (s.readAll = ([], none) →
      s.readOne .form = (none, some (s.problemAt s.text.length (.unreadable .endOfInput)))) ∧
    (∀ e, s.readAll = ([], some e) → s.readOne .form = (none, some e)) ∧
    (∀ x, s.readAll = ([x], none) → s.readOne .form = (some x, none)) ∧
    ∀ x xs e, s.readAll = (x :: xs, e) → xs ≠ [] ∨ e ≠ none →
      ∃ k, s.readOne .form = (some x, some (s.problemAt k (.leftover k))) ∧ Resumes s.text x.span.stop k ∧
        ∀ y ∈ xs.head?, k = y.span.start := by
  refine ⟨fun h => ?_, fun e h => ?_, fun x h => ?_, fun x xs e h hmore => ?_⟩
  · obtain ⟨fault, hscan, he⟩ := scan_of_readAll h
    obtain ⟨hdone, hfault⟩ := scan_done hscan
    have hnext := Scanner.next_of_none rfl hdone (hfault.trans (Option.map_eq_none_iff.mp he.symm))
    rw [readOne_of_fault hnext]
    simp only [Nat.zero_add]
    rfl
  · obtain ⟨fault, hscan, he⟩ := scan_of_readAll h
    obtain ⟨hdone, hfault⟩ := scan_done hscan
    obtain ⟨f, rfl, rfl⟩ := Option.map_eq_some_iff.mp he.symm
    exact readOne_of_fault (Scanner.next_of_fault rfl hdone hfault)
  · obtain ⟨fault, hscan, he⟩ := scan_of_readAll h
    obtain rfl : fault = none := Option.map_eq_none_iff.mp he.symm
    exact readOne_of_scan hscan
  · obtain ⟨fault, hscan, rfl⟩ := scan_of_readAll h
    have hblank : SpaceSet.all.skipBlanks (s.text.drop x.span.stop) ≠ [] := by
      intro hb
      obtain ⟨rfl, rfl⟩ := (blank_behind_iff hscan).mp hb
      exact hmore.elim (absurd rfl) (absurd rfl)
    refine ⟨_, ?_, resumes_skipBlanks hblank, fun y hy => ?_⟩
    · rw [readOne_of_next (next_of_scan hscan), if_neg (by simpa using hblank)]
    · obtain ⟨ys, rfl⟩ := List.head?_eq_some_iff.mp hy
      exact (resumes_skipBlanks hblank).unique (resumes_second hscan)

/-- A comment alone, a closing bracket behind a comment, one form between blanks, and a form with a comment,
another form and a closing bracket behind it. -/
theorem readOne_of_readAll_around_comments :
    ((ofText (utf8 " ;a")).readAll = ([], none) ∧
      (ofText (utf8 " ;a")).readOne .form =
        (none, some ((ofText (utf8 " ;a")).problemAt 3 (.unreadable .endOfInput)))) ∧
    (∃ e, (ofText (utf8 ";a\n )")).readAll = ([], some e) ∧
      (ofText (utf8 ";a\n )")).readOne .form = (none, some e)) ∧
    (∃ x, (ofText (utf8 " a ;b")).readAll = ([x], none) ∧ (ofText (utf8 " a ;b")).readOne .form = (some x, none)) ∧
    ∃ x y e, (ofText (utf8 "a;(\nb )")).readAll = ([x, y], some e) ∧
      (ofText (utf8 "a;(\nb )")).readOne .form =
        (some x, some ((ofText (utf8 "a;(\nb )")).problemAt 4 (.leftover 4))) ∧
      Resumes (utf8 "a;(\nb )") 1 4 := by
  have hempty : (ofText (utf8 " ;a")).readAll = ([], none) := rfl
  have hbroken : (ofText (utf8 ";a\n )")).readAll = ([], some _) := rfl
  have hsingle : (ofText (utf8 " a ;b")).readAll = ([_], none) := rfl
  have hmore : (ofText (utf8 "a;(\nb )")).readAll = ([_, _], some _) := rfl
  obtain ⟨k, hone, hresumes, hstart⟩ :=
    (readOne_of_readAll (ofText (utf8 "a;(\nb )"))).2.2.2 _ _ _ hmore (.inl (by simp))
  obtain rfl : k = 4 := hstart _ rfl
  exact ⟨⟨hempty, (readOne_of_readAll _).1 hempty⟩, ⟨_, hbroken, (readOne_of_readAll _).2.1 _ hbroken⟩,
    ⟨_, hsingle, (readOne_of_readAll _).2.2.1 _ hsingle⟩, _, _, _, hmore, hone, hresumes⟩

end Source

end RegisterMachine
