import RegisterMachine.Proofs.LineReading
import RegisterMachine.Proofs.Positions
import RegisterMachine.Proofs.TextOrder

/-!
# Incomplete and faulty texts

A text cannot be read to its end for one of two reasons.  Either it ends in the middle of a form, and then it can
be continued to a text that can be read; or there is a fault in it that no continuation on a new line repairs.

* `Cause.isOpen`: the causes of the first kind; `Fault.root_isOpen`: the error tells which kind it is.
* `Scanner.exists_accepts`: whatever is open in a scanner can be completed.
* `Scanner.foldl_step_of_fault`: behind a fault nothing changes.
* `ReadingStops t xs offset e`: reading the text stops at the offset, behind the forms `xs`, with the error `e`.
* `Source.readAll_incomplete_or_permanent`: the two kinds of failure.
-/

namespace RegisterMachine

open Syntax

/-! ## Causes -/

/-- The text ended in the middle of a form. -/
def Cause.isOpen : Cause → Bool
  | endOfInput | unterminated => true
  | unbalanced | badRune | noForm => false

theorem Fault.root_isOpen (f : Fault) : f.error.root = .endOfInput ↔ f.cause.isOpen = true := by
  obtain ⟨offset, cause, frames⟩ := f
  cases cause with
  | endOfInput => exact iff_of_true (root_endOfInput rfl) rfl
  | unterminated => exact iff_of_true (root_unterminated rfl) rfl
  | unbalanced | badRune | noForm =>
    refine iff_of_false ?_ (by simp [Cause.isOpen])
    simp [Fault.error, root_enclose, ReadError.root]

theorem Source.isIncomplete_problemAt (s : Source) (f : Fault) :
    (s.problemAt f.offset (.unreadable f.error)).isIncomplete = f.cause.isOpen := by
  have h := f.root_isOpen
  unfold SyntaxError.isIncomplete problemAt
  dsimp only
  split
  · next hr => exact (h.mp hr).symm
  · next hr => exact (Bool.eq_false_iff.mpr fun ho => hr (h.mpr ho)).symm

namespace Scanner

variable {s : Scanner} {t : Bytes} {f : Fault}

/-! ## Faults on the way

A fault between the ends of a text has a cause that is not open, and lies in the text before it. -/

theorem deliver_fault (s : Scanner) (x : Form) : (s.deliver x).fault = s.fault := by
  unfold deliver
  split <;> rfl

theorem atom_error_le {start i : Nat} {w : Bytes} (h : atom start w = .error i) : i ≤ w.length := by
  unfold atom at h
  split at h
  · cases h
  · split at h
    · next hb =>
      cases h
      exact le_of_badRune? hb
    · cases h

theorem endAtom_fault (hf : s.fault = none) {start : Nat} {w : Bytes} (h : (s.endAtom start w).fault = some f) :
    f.cause.isOpen = false ∧ f.offset ≤ start + w.length := by
  unfold endAtom at h
  split at h
  · rw [deliver_fault, hf] at h
    cases h
  · cases h
    exact ⟨rfl, Nat.le_add_right ..⟩
  · next i _ hi =>
    cases h
    have := atom_error_le hi
    rw [List.length_reverse] at this
    exact ⟨rfl, Nat.add_le_add_left this start⟩

theorem enter_of_fault (hf : s.fault = some f) (c : UInt8) : s.enter c = s := by
  unfold enter
  rw [if_pos (by rw [hf]; rfl)]

theorem enter_fault (hf : s.fault = none) {c : UInt8} (h : (s.enter c).fault = some f) :
    f.cause.isOpen = false ∧ f.offset = s.offset := by
  unfold enter at h
  split at h
  · rw [hf] at h
    cases h
  split at h
  · rw [hf] at h
    cases h
  split at h
  · simp [hf] at h
  split at h
  · simp [hf] at h
  split at h
  · split at h
    · rw [deliver_fault] at h
      simp [hf] at h
    · cases h
      exact ⟨rfl, rfl⟩
  split at h
  · simp [hf] at h
  split at h <;> simp [hf] at h

theorem read_fault (hf : s.fault = none) (ha : s.Aligned) {c : UInt8} (h : (s.read c).fault = some f) :
    f.cause.isOpen = false ∧ f.offset ≤ s.offset := by
  unfold read at h
  cases hm : s.mode with
  | blank =>
    rw [hm] at h
    obtain ⟨hc, ho⟩ := enter_fault hf h
    exact ⟨hc, Nat.le_of_eq ho⟩
  | comment =>
    rw [hm] at h
    dsimp only at h
    split at h <;> simp [hf] at h
  | atom start w =>
    rw [hm] at h
    dsimp only at h
    split at h
    · -- the byte ends the atom; only where the atom is one can the byte be the fault
      cases he : (s.endAtom start w).fault with
      | some g =>
        rw [enter_of_fault he, he] at h
        cases h
        rw [← ha hf start w hm]
        exact endAtom_fault hf he
      | none =>
        obtain ⟨hc, ho⟩ := enter_fault he h
        rw [endAtom_offset] at ho
        exact ⟨hc, Nat.le_of_eq ho⟩
    · simp [hf] at h
  | string start w =>
    rw [hm] at h
    dsimp only at h
    split at h
    · rw [deliver_fault, hf] at h
      cases h
    · split at h <;> simp [hf] at h
  | escape start w =>
    rw [hm] at h
    simp [hf] at h

theorem step_fault (ha : s.Aligned) {c : UInt8} (h : (s.step c).fault = some f) :
    s.fault = some f ∨ s.fault = none ∧ f.cause.isOpen = false ∧ f.offset ≤ s.offset := by
  unfold step at h
  split at h
  · exact .inl h
  · next hs =>
    have hf : s.fault = none := by simpa using hs
    exact .inr ⟨hf, read_fault hf ha h⟩

theorem tracks_foldl (t : Bytes) : (t.foldl step {}).Tracks t := by
  induction t using List.reverseRecOn with
  | nil => exact tracks_start
  | append_singleton t c ih =>
    rw [List.foldl_append]
    exact ih.step c

theorem aligned_foldl (t : Bytes) : (t.foldl step {}).Aligned := by
  induction t using List.reverseRecOn with
  | nil => simp [Aligned]
  | append_singleton t c ih =>
    rw [List.foldl_append]
    exact aligned_step ih c

/-- **A fault on the way** is not that the text has ended, and it lies in the text before it. -/
theorem foldl_fault (h : (t.foldl step {}).fault = some f) : f.cause.isOpen = false ∧ f.offset ≤ t.length := by
  induction t using List.reverseRecOn with
  | nil => cases h
  | append_singleton t c ih =>
    rw [List.foldl_append] at h
    rw [List.length_append]
    rcases step_fault (aligned_foldl t) h with h | ⟨hf, hc, ho⟩
    · obtain ⟨hc, ho⟩ := ih h
      exact ⟨hc, Nat.le_add_right_of_le ho⟩
    · rw [(tracks_foldl t).offset hf] at ho
      exact ⟨hc, Nat.le_add_right_of_le ho⟩

/-! ## Faults at the end -/

/-- A fault at the end of a text is that of the atom there, or that something is open. -/
theorem finish_fault (hf : s.fault = none) (h : s.finish.fault = some f) :
    (∃ start w, s.mode = .atom start w ∧ s.finish = s.endAtom start w) ∨
      (f.cause.isOpen = true ∧ f.offset = s.offset ∧
        ∀ start w, s.mode = .atom start w → (s.endAtom start w).fault = none) := by
  unfold finish at h ⊢
  rw [if_neg (by simp [hf])] at h ⊢
  cases hm : s.mode with
  | atom start w =>
    rw [hm] at h
    dsimp only at h ⊢
    cases he : (s.endAtom start w).fault with
    | some g => exact .inl ⟨start, w, rfl, by simp⟩
    | none =>
      right
      rw [he] at h
      split at h
      · rw [he] at h
        cases h
      · cases h
        refine ⟨rfl, endAtom_offset start w, ?_⟩
        rintro _ _ ⟨⟩
        exact he
  | blank | comment =>
    right
    rw [hm] at h
    dsimp only at h
    split at h
    · rw [hf] at h
      cases h
    · cases h
      exact ⟨rfl, rfl, by simp⟩
  | string start w | escape start w =>
    right
    rw [hm] at h
    cases h
    exact ⟨rfl, rfl, by simp⟩

/-! ## Completing what is open -/

/-- Behind a complete form, closing brackets complete the open lists. -/
theorem exists_after (done : List Form) (frames : List Frame) (x : Form) :
    ∃ t xs, EndsWord t ∧ After done frames x t xs := by
  induction frames generalizing x with
  | nil => exact ⟨[], _, by simp [EndsWord], [], rfl, .nil .nil⟩
  | cons frame outer ih =>
    cases frame with
    | list start items =>
      obtain ⟨t, xs, -, h⟩ := ih (.list .none (Form.bares items.reverse ++ [x]))
      exact ⟨0x29 :: t, xs, by simp [EndsWord, isDelimiter], [], t, .nil .nil, h⟩
    | quote start => exact ih x.quoted

/-- Between forms too, where a quote mark waits for any form. -/
theorem exists_inside (done : List Form) (frames : List Frame) : ∃ t xs, Inside done frames t xs := by
  cases frames with
  | nil => exact ⟨[], _, [], rfl, .nil .nil⟩
  | cons frame outer =>
    cases frame with
    | list start items =>
      obtain ⟨t, xs, -, h⟩ := exists_after done outer (.list .none (Form.bares items.reverse))
      exact ⟨0x29 :: t, xs, [], t, .nil .nil, by rwa [List.append_nil]⟩
    | quote start =>
      obtain ⟨t, xs, -, h⟩ := exists_after done outer (Form.quoted (.list .none []))
      have hsolid : Solid (0x28 :: 0x29 :: t) := skipBlanks_solid rfl (by decide)
      refine ⟨0x28 :: 0x29 :: t, xs, .list .none [], t, ?_, h⟩
      rw [hsolid]
      exact .list (.nil .nil)

/-- **Whatever is open in a scanner can be completed**, provided that the bytes of an atom are one. -/
theorem exists_accepts (hf : s.fault = none)
    (ha : ∀ start w, s.mode = .atom start w → (s.endAtom start w).fault = none) : ∃ t xs, Accepts s t xs := by
  have hopen : ∀ t xs, Expects s.done s.frames s.mode t xs → ∃ t xs, Accepts s t xs := fun t xs h => ⟨t, xs, hf, h⟩
  cases hm : s.mode with
  | blank =>
    obtain ⟨t, xs, h⟩ := exists_inside s.done s.frames
    exact hopen t xs (hm ▸ h)
  | comment =>
    obtain ⟨t, xs, h⟩ := exists_inside s.done s.frames
    refine hopen (byte '\n' :: t) xs ?_
    rw [hm, Expects, skipFrom_endsLine (by simp [EndsLine]), skipBlanks_space rfl, inside_skipBlanks_iff]
    exact h
  | atom start w =>
    have hok : ∃ x, atom start w.reverse = .ok x := by
      have he := ha start w hm
      unfold endAtom at he
      split at he
      · next x hx => exact ⟨x, hx⟩
      · cases he
      · cases he
    obtain ⟨x, hx⟩ := hok
    obtain ⟨t, xs, ht, h⟩ := exists_after s.done s.frames x.bare
    refine hopen t xs ?_
    rw [hm]
    exact ⟨[], t, x.bare, rfl, by simp,
      ht, by simpa using (atom_iff_word start w.reverse x.bare).mp ⟨x, hx, rfl⟩, h⟩
  | string start w =>
    obtain ⟨t, xs, -, h⟩ := exists_after s.done s.frames (.string .none (w.reverse ++ []))
    exact hopen (0x22 :: t) xs (hm ▸ ⟨[], t, .close, h⟩)
  | escape start w =>
    obtain ⟨t, xs, -, h⟩ := exists_after s.done s.frames (.string .none (w.reverse ++ [0x22]))
    exact hopen (0x22 :: 0x22 :: t) xs (hm ▸ ⟨0x22, 0x22 :: t, [], t, rfl, .close, h⟩)

/-! ## Behind a fault -/

theorem step_of_fault (hf : s.fault = some f) (c : UInt8) : s.step c = s := by
  unfold step
  rw [if_pos (by rw [hf]; rfl)]

theorem foldl_step_of_fault (hf : s.fault = some f) (t : Bytes) : t.foldl step s = s := by
  induction t with
  | nil => rfl
  | cons c t ih => rw [List.foldl_cons, step_of_fault hf, ih]

theorem finish_of_fault (hf : s.fault = some f) : s.finish = s := by
  unfold finish
  rw [if_pos (by rw [hf]; rfl)]

theorem fault_of_foldl (h : (t.foldl step s).finish.fault = none) : s.fault = none := by
  cases hs : s.fault with
  | none => rfl
  | some f =>
    rw [foldl_step_of_fault hs, finish_of_fault hs, hs] at h
    cases h

/-- A line end ends an atom as the end of the text does. -/
theorem step_lineFeed_of_atom (hf : s.fault = none) {start : Nat} {w : Bytes} (hm : s.mode = .atom start w) :
    s.step (byte '\n') = { s.endAtom start w with offset := s.offset + 1 } := by
  have hdel : isDelimiter (byte '\n') = true := by decide
  unfold step
  rw [if_neg (by simp [hf]), read, hm]
  dsimp only
  rw [if_pos hdel, enter_space (by decide)]

end Scanner

/-! ## Texts -/

section Texts

variable {t : Bytes} {xs : List Form} {f : Fault}

theorem scan_eq (t : Bytes) :
    scan t = ((t.foldl Scanner.step {}).finish.done.reverse, (t.foldl Scanner.step {}).finish.fault) := rfl

/-- The end of a text stands where it is complete or where something is open. -/
theorem scan_fault_cases (h : (scan t).2 = some f) :
    (f.cause.isOpen = false ∧ f.offset ≤ t.length) ∨
      (f.cause.isOpen = true ∧ f.offset = t.length ∧ ∃ more ys, Denotes (t ++ more) ys) := by
  rw [scan_eq] at h
  cases hf : (t.foldl Scanner.step {}).fault with
  | some g =>
    rw [Scanner.finish_of_fault hf, hf] at h
    cases h
    exact .inl (Scanner.foldl_fault hf)
  | none =>
    rcases Scanner.finish_fault hf h with ⟨start, w, hm, he⟩ | ⟨hc, ho, ha⟩
    · left
      obtain ⟨hc, ho⟩ := Scanner.endAtom_fault hf (he ▸ h)
      rw [Scanner.aligned_foldl t hf start w hm, (Scanner.tracks_foldl t).offset hf] at ho
      exact ⟨hc, ho⟩
    · right
      obtain ⟨more, ys, hy⟩ := Scanner.exists_accepts hf ha
      refine ⟨hc, ho.trans ((Scanner.tracks_foldl t).offset hf), more, ys, ?_⟩
      rw [denotes_iff_accepts, Scanner.accepts_append_iff]
      exact hy

/-- What is no open end stays as it is, whatever follows on the next line. -/
theorem scan_lineFeed_of_closed (h : (scan t).2 = some f) (hc : f.cause.isOpen = false) (more : Bytes) :
    scan (t ++ byte '\n' :: more) = scan t := by
  rw [scan_eq] at h ⊢
  rw [scan_eq, List.foldl_append, List.foldl_cons]
  cases hf : (t.foldl Scanner.step {}).fault with
  | some g => rw [Scanner.step_of_fault hf, Scanner.foldl_step_of_fault hf]
  | none =>
    rcases Scanner.finish_fault hf h with ⟨start, w, hm, he⟩ | ⟨hopen, -⟩
    · rw [he] at h
      have hstep := Scanner.step_lineFeed_of_atom hf hm
      have hfault : ((t.foldl Scanner.step {}).step (byte '\n')).fault = some f := by rw [hstep]; exact h
      rw [Scanner.foldl_step_of_fault hfault, Scanner.finish_of_fault hfault, hstep, he]
    · rw [hc] at hopen
      cases hopen

/-- Reading all forms of a text stops at the offset, behind the forms `xs`, with the error `e`: that is what is
reported, and the offset is one of the text. -/
structure ReadingStops (t : Bytes) (xs : List Form) (offset : Nat) (e : ReadError) : Prop where
  inside : offset ≤ t.length
  reported : (Source.ofText t).readAll = (xs, some ((Source.ofText t).problemAt offset (.unreadable e)))

theorem scan_fault_le (h : (scan t).2 = some f) : f.offset ≤ t.length := by
  rcases scan_fault_cases h with ⟨-, ho⟩ | ⟨-, ho, -⟩
  · exact ho
  · exact Nat.le_of_eq ho

/-- Reading stops at the first fault, and only there. -/
theorem readingStops_iff {offset : Nat} {e : ReadError} :
    ReadingStops t xs offset e ↔ ∃ f, scan t = (xs, some f) ∧ f.offset = offset ∧ f.error = e := by
  constructor
  · rintro ⟨hin, h⟩
    rw [Source.readAll_ofText] at h
    obtain ⟨hxs, herr⟩ := Prod.mk.inj h
    obtain ⟨f, hf, hp⟩ := Option.map_eq_some_iff.mp herr
    have hpos := congrArg SyntaxError.position hp
    have hproblem := congrArg SyntaxError.problem hp
    refine ⟨f, Prod.ext hxs hf, Source.position_ofText_inj (scan_fault_le hf) hin hpos, ?_⟩
    exact SyntaxProblem.unreadable.inj hproblem
  · rintro ⟨f, hf, rfl, rfl⟩
    refine ⟨scan_fault_le (congrArg Prod.snd hf), ?_⟩
    rw [Source.readAll_ofText, hf]
    rfl

theorem ReadingStops.unique {ys : List Form} {i j : Nat} {d e : ReadError} (h : ReadingStops t xs i d)
    (h' : ReadingStops t ys j e) : i = j ∧ d = e := by
  obtain ⟨f, hf, rfl, rfl⟩ := readingStops_iff.mp h
  obtain ⟨g, hg, rfl, rfl⟩ := readingStops_iff.mp h'
  rw [hf] at hg
  cases hg
  exact ⟨rfl, rfl⟩

/-- **Unexpected end means incomplete, and every other error is permanent.**  Whenever a text cannot be read to its
end, reading stops at one offset of it with one error.  If the error says that the text has ended, the offset is
the end of the text and some continuation makes it a text that can be read.  Otherwise the text followed by a line
end and anything else gives the same forms and the same error at the same offset, reported as before. -/
theorem Source.readAll_incomplete_or_permanent {err : SyntaxError}
    (h : (Source.ofText t).readAll = (xs, some err)) :
    ∃ offset e, ReadingStops t xs offset e ∧ (∀ i d, ReadingStops t xs i d → i = offset ∧ d = e) ∧
      (err.isIncomplete = true → offset = t.length ∧ ∃ more ys, (Source.ofText (t ++ more)).readAll = (ys, none)) ∧
      (err.isIncomplete = false → ∀ more, ReadingStops (t ++ byte '\n' :: more) xs offset e ∧
        (Source.ofText (t ++ byte '\n' :: more)).readAll = (xs, some err)) := by
  rw [Source.readAll_ofText] at h
  obtain ⟨hxs, herr⟩ := Prod.mk.inj h
  obtain ⟨f, hf, rfl⟩ := Option.map_eq_some_iff.mp herr
  have hscan : scan t = (xs, some f) := Prod.ext hxs hf
  have hstops : ReadingStops t xs f.offset f.error := readingStops_iff.mpr ⟨f, hscan, rfl, rfl⟩
  refine ⟨f.offset, f.error, hstops, fun i d h => h.unique hstops, ?_, ?_⟩
  · intro hopen
    rw [Source.isIncomplete_problemAt] at hopen
    rcases scan_fault_cases hf with ⟨hc, -⟩ | ⟨-, ho, more, ys, hy⟩
    · rw [hopen] at hc
      cases hc
    · obtain ⟨forms, hr, -⟩ := hy.readAll
      exact ⟨ho, more, forms, hr⟩
  · intro hclosed more
    rw [Source.isIncomplete_problemAt] at hclosed
    have hsame : scan (t ++ byte '\n' :: more) = (xs, some f) :=
      (scan_lineFeed_of_closed hf hclosed more).trans hscan
    refine ⟨readingStops_iff.mpr ⟨f, hsame, rfl, rfl⟩, ?_⟩
    rw [Source.readAll_ofText, hsame, Option.map_some]
    simp only [Source.problemAt, Source.position_ofText_append (scan_fault_le hf)]

/-- A string that ends behind a backslash, inside a quoted list, is incomplete; a closing bracket at the top level
is permanent. -/
theorem Source.readAll_incomplete_or_permanent_escape_and_bracket :
    (∃ xs err, (Source.ofText (utf8 "'(\"\\")).readAll = (xs, some err) ∧ err.isIncomplete = true ∧
      ∃ more ys, (Source.ofText (utf8 "'(\"\\" ++ more)).readAll = (ys, none)) ∧
    ∃ xs err, (Source.ofText (utf8 "a )")).readAll = (xs, some err) ∧ err.isIncomplete = false ∧
      ∀ more, ReadingStops (utf8 "a )" ++ byte '\n' :: more) xs 2 .unbalanced := by
  have hopen : (Source.ofText (utf8 "'(\"\\")).readAll = (_, some _) := rfl
  have hclosed : (Source.ofText (utf8 "a )")).readAll = (_, some _) := rfl
  obtain ⟨_, _, -, -, hmore, -⟩ := Source.readAll_incomplete_or_permanent hopen
  obtain ⟨offset, e, -, huniq, -, hsame⟩ := Source.readAll_incomplete_or_permanent hclosed
  obtain ⟨rfl, rfl⟩ := huniq 2 .unbalanced ⟨by decide, rfl⟩
  exact ⟨⟨_, _, hopen, rfl, (hmore rfl).2⟩, _, _, hclosed, rfl, fun more => (hsame rfl more).1⟩

end Texts

end RegisterMachine
