import RegisterMachine.Proofs.FormKinds

/-!
# Form after form

The forms of a text can be read in one scan, or one after the other, each from the text that the one before it has
left.  Both ways give the same forms and the same error.

* `Scanner.foldl_of_next`: behind the first form a scan goes on as it does at the start of a text.
* `Grammar.readMany_form`: reading form after form is a scan.
* `Source.readAll_eq_readAllBy`: so both ways of reading a source agree.
-/

namespace RegisterMachine

open Syntax

namespace Scanner

variable {s : Scanner} {t r : Bytes} {x : Form}

theorem inside_nil (hf : s.fault = none) : s.inside [] = s := by
  rw [inside_of_none [] hf, List.append_nil]

theorem between_of_not_engaged (he : ¬ s.Engaged) : s.frames = [] ∧ (s.mode = .blank ∨ s.mode = .comment) := by
  obtain ⟨hfr, hm⟩ := Classical.not_imp.mp he
  rw [not_and_or, not_not, not_not] at hm
  exact ⟨hfr, hm⟩

/-- Between top level forms no byte completes one. -/
theorem read_done_of_not_engaged (he : ¬ s.Engaged) (c : UInt8) : (s.read c).done = s.done := by
  obtain ⟨hfr, hm | hm⟩ := between_of_not_engaged he
  · rw [Scanner.read, hm]
    exact enter_done c hfr
  · rw [Scanner.read, hm]
    dsimp only
    split <;> rfl

theorem finish_of_not_engaged (hf : s.fault = none) (he : ¬ s.Engaged) : s.finish = s := by
  obtain ⟨hfr, hm | hm⟩ := between_of_not_engaged he
  · rw [finish, if_neg (by simp [hf]), hm]
    exact if_pos (by simp [hfr])
  · rw [finish, if_neg (by simp [hf]), hm]
    exact if_pos (by simp [hfr])

theorem next_cons_ok {c : UInt8} (h : s.next (c :: t) = .ok (x, r)) :
    (∃ l, (s.step c).done = x :: l ∧ r = if x.span.stop ≤ s.offset then c :: t else t) ∨
    (s.step c).done = [] ∧ (s.step c).fault = none ∧ (s.step c).next t = .ok (x, r) := by
  rcases next_cons_cases s c t with ⟨y, l, hdone, heq⟩ | ⟨-, f, -, heq⟩ | ⟨hdone, hfault, heq⟩
  · cases heq.symm.trans h
    exact .inl ⟨l, hdone, rfl⟩
  · cases heq.symm.trans h
  · exact .inr ⟨hdone, hfault, heq.symm.trans h⟩

theorem next_nil_ok (h : s.next [] = .ok (x, r)) : (∃ l, s.finish.done = x :: l) ∧ r = [] := by
  rcases next_nil_cases s with ⟨y, l, hdone, heq⟩ | ⟨-, f, -, heq⟩ | ⟨-, -, heq⟩
  · cases heq.symm.trans h
    exact ⟨⟨l, hdone⟩, rfl⟩
  · cases heq.symm.trans h
  · cases heq.symm.trans h

/-- **Behind the first form a scan starts again**, with this form complete. -/
theorem foldl_of_next (hf : s.fault = none) (hd : s.done = []) (ha : s.Aligned) (h : s.next t = .ok (x, r)) :
    (t.foldl step s).finish = (r.foldl step { offset := x.span.stop, done := [x] }).finish := by
  have hdeliver (i : Nat) (y : Form) : deliver { offset := i } y = { offset := i, done := [y] } := rfl
  induction t generalizing s with
  | nil =>
    obtain ⟨⟨l, hdone⟩, rfl⟩ := next_nil_ok h
    by_cases he : s.Engaged
    · rcases finish_inside [] hf hd ha he with ⟨hnil, -⟩ | ⟨y, hy, hstop, heq⟩
      · cases hnil.symm.trans hdone
      · obtain ⟨rfl, rfl⟩ := List.cons.inj (hdone.symm.trans hy)
        rw [inside_nil hf, hdeliver] at heq
        rw [hstop]
        exact heq
    · rw [finish_of_not_engaged hf he, hd] at hdone
      cases hdone
  | cons c t ih =>
    rcases next_cons_ok h with ⟨l, hdone, rfl⟩ | ⟨hdone, hfault, hnext⟩
    · by_cases he : s.Engaged
      · rcases step_inside [] hf hd ha he c with hstays | ⟨y, hy⟩
        · cases hstays.done.symm.trans hdone
        · obtain ⟨rfl, rfl⟩ := List.cons.inj (hdone.symm.trans hy.done)
          have heq := hy.step_eq
          rw [inside_nil hf, hdeliver, hdeliver] at heq
          rcases heq with ⟨hstop, heq⟩ | ⟨hstop, heq⟩
          · rw [if_neg (by omega), List.foldl_cons, heq, hstop]
          · rw [if_pos (Nat.le_of_eq hstop), List.foldl_cons, List.foldl_cons, heq, hstop]
      · rw [step_eq_read hf] at hdone
        cases (read_done_of_not_engaged he c).symm.trans hdone ▸ hd
    · exact ih hfault hdone (aligned_step ha c) hnext

end Scanner

/-! ## Reading one after the other -/

namespace Grammar

variable {g : Grammar} {i : Nat} {t r : Bytes} {x : Form}

theorem readMany_of_nil (h : SpaceSet.all.skipBlanks t = []) : g.readMany i t = ([], none) := by
  rw [readMany]
  split
  · rfl
  · next hs => cases h.symm.trans hs

theorem readMany_of_error {c : UInt8} {v : Bytes} (hs : SpaceSet.all.skipBlanks t = c :: v) {e : Nat × ReadError}
    (h : g.read (i + (t.length - (c :: v).length)) (c :: v) = .error e) : g.readMany i t = ([], some e) := by
  rw [readMany]
  split
  · next hnil => cases hnil.symm.trans hs
  · next d w hcons =>
    obtain ⟨rfl, rfl⟩ := List.cons.inj (hcons.symm.trans hs)
    split
    · next he =>
      cases h.symm.trans he
      rfl
    · next ho => cases h.symm.trans ho

theorem readMany_of_ok {c : UInt8} {v : Bytes} (hs : SpaceSet.all.skipBlanks t = c :: v)
    (h : g.read (i + (t.length - (c :: v).length)) (c :: v) = .ok (x, r)) :
    g.readMany i t =
      (x :: (g.readMany (i + (t.length - r.length)) r).1, (g.readMany (i + (t.length - r.length)) r).2) := by
  rw [readMany]
  split
  · next hnil => cases hnil.symm.trans hs
  · next d w hcons =>
    obtain ⟨rfl, rfl⟩ := List.cons.inj (hcons.symm.trans hs)
    split
    · next he => cases h.symm.trans he
    · next ho =>
      cases h.symm.trans ho
      rfl

end Grammar

/-- Only blanks stand in a text exactly if it has neither a form nor a fault. -/
theorem skipBlanks_eq_nil_iff_finish (t : Bytes) : SpaceSet.all.skipBlanks t = [] ↔
    (t.foldl Scanner.step {}).finish.done = [] ∧ (t.foldl Scanner.step {}).finish.fault = none := by
  have h := scan_iff_denotes t []
  rw [scan_eq, Denotes, Form.bares_eq_map, List.map_eq_nil_iff, List.reverse_eq_nil_iff] at h
  rw [skipBlanks_eq_nil_iff, h, and_comm]

/-- A scan that starts at an offset. -/
theorem finish_from (i : Nat) (xs : List Form) (t : Bytes) :
    (t.foldl Scanner.step { offset := i, done := xs }).finish = (t.foldl Scanner.step {}).finish.behind i xs := by
  rw [← Scanner.finish_behind, ← Scanner.foldl_step_behind]
  rfl

/-- **Reading form after form is a scan.** -/
theorem Grammar.readMany_form (i : Nat) (t : Bytes) :
    Grammar.form.readMany i t = ((t.foldl Scanner.step { offset := i }).finish.done.reverse,
      (t.foldl Scanner.step { offset := i }).finish.fault.map fun f => (f.offset, f.error)) := by
  induction hn : t.length using Nat.strongRecOn generalizing i t with
  | ind n ih =>
    have hscan := skipBlanks_eq_nil_iff_finish t
    cases hs : SpaceSet.all.skipBlanks t with
    | nil =>
      obtain ⟨hdone, hfault⟩ := hscan.mp hs
      rw [readMany_of_nil hs, finish_from, Scanner.behind, hdone, hfault]
      rfl
    | cons c v =>
      have hnext := Scanner.next_skipBlanks [] i t
      rw [hs] at hnext
      rcases List.eq_nil_or_concat (t.foldl Scanner.step { offset := i }).finish.done with hdone | ⟨l, x, hdone⟩
      · cases hfault : (t.foldl Scanner.step { offset := i }).finish.fault with
        | none =>
          -- a text with neither a form nor a fault is blank
          rw [finish_from, Scanner.behind, List.append_nil, List.map_eq_nil_iff] at hdone
          rw [finish_from, Scanner.behind, Option.map_eq_none_iff] at hfault
          cases hs.symm.trans (hscan.mpr ⟨hdone, hfault⟩)
        | some f =>
          have herror := Scanner.next_of_fault rfl hdone hfault
          rw [hnext] at herror
          rw [readMany_of_error hs (read_form_of_error herror), hdone]
          rfl
      · rw [List.concat_eq_append] at hdone
        obtain ⟨r, hok⟩ := Scanner.next_of_done rfl hdone
        have hlt := Scanner.next_start_lt hok
        have hrun := Scanner.foldl_of_next rfl rfl (by simp [Scanner.Aligned]) hok
        obtain ⟨u, hu, hstop⟩ := Scanner.next_stop rfl rfl (by simp [Scanner.Aligned]) hok
        have hoffset : i + (t.length - r.length) = x.span.stop := by
          rw [hstop, hu, List.length_append, Nat.add_sub_cancel]
        rw [hnext] at hok
        rw [readMany_of_ok hs (read_form_of_ok hok), hoffset, ih r.length (by omega) x.span.stop r rfl, hrun,
          finish_from x.span.stop [] r, finish_from x.span.stop [x] r]
        simp [Scanner.behind]

/-- **Both ways of reading all forms of a source agree.** -/
theorem Source.readAll_eq_readAllBy (s : Source) : s.readAll = s.readAllBy .form := by
  rw [readAll, readAllBy, Grammar.readMany_form, scan_eq]
  dsimp only
  rw [Option.map_map]
  rfl

end RegisterMachine
