import RegisterMachine.Proofs.Descent
import RegisterMachine.Proofs.FormAfterForm

/-!
# Progress

Reading by a grammar has the outcome of recursive descent, which every call reaches.  So reading ends for every
grammar and text, it stays inside of the text, and every form that is read moves on in it.

* `Descent.Call.reading_eq`: the rules of recursive descent say what the definitions say.
* `Descent.call_iff`, `Descent.reads_iff`: a call, and reading form after form, have exactly one outcome.
* `Grammar.read_progress`: reading makes progress and stays inside of the text.
-/

namespace RegisterMachine

open Syntax

namespace Descent

variable {b : Bytes} {i j k : Nat}

/-! ## Loops -/

theorem drop_of_getElem? {c : UInt8} (h : b[i]? = some c) : b.drop i = c :: b.drop (i + 1) := by
  obtain ⟨hi, rfl⟩ := List.getElem?_eq_some_iff.mp h
  exact List.drop_eq_getElem_cons hi

theorem Run.dropWhile {p : UInt8 → Bool} (h : Run b p i j) : (b.drop i).dropWhile p = b.drop j := by
  induction h with
  | ended => rw [List.drop_length, List.dropWhile_nil]
  | other hc hp => rw [drop_of_getElem? hc, List.dropWhile_cons_of_neg (by simp [hp])]
  | more hc hp _ ih => rw [drop_of_getElem? hc, List.dropWhile_cons_of_pos hp, ih]

theorem Run.takeWhile {p : UInt8 → Bool} (h : Run b p i j) : (b.drop i).takeWhile p = Span.text b ⟨i, j⟩ := by
  have hle := h.le
  have hsplit : (b.drop i).takeWhile p ++ b.drop j = b.drop i := by
    rw [← h.dropWhile, List.takeWhile_append_dropWhile]
  have htext : Span.text b ⟨i, j⟩ ++ b.drop j = b.drop i := by
    have hdrop : b.drop j = (b.drop i).drop (j - i) := by rw [List.drop_drop, Nat.add_sub_cancel' hle.1]
    rw [Span.text, List.drop_take, hdrop, List.take_append_drop]
  exact List.append_cancel_right (hsplit.trans htext.symm)

theorem Run.stop {p : UInt8 → Bool} {c : UInt8} (h : Run b p i j) (hc : b[j]? = some c) : p c = false := by
  induction h with
  | ended => exact absurd (lt_of_getElem? hc) (Nat.lt_irrefl _)
  | other hd hp =>
    obtain rfl := Option.some.inj (hc.symm.trans hd)
    exact hp
  | more _ _ _ ih => exact ih hc

theorem Run.skipSpaces (h : Run b isSpace i j) :
    SpaceSet.all.skipBlanks (b.drop i) = SpaceSet.all.skipBlanks (b.drop j) := by
  induction h with
  | ended => rfl
  | other => rfl
  | more hc hp _ ih => rw [drop_of_getElem? hc, skipBlanks_space hp, ih]

theorem Run.skipComment (h : Run b (· != byte '\n') i j) :
    SpaceSet.all.skipFrom true (b.drop i) = SpaceSet.all.skipBlanks (b.drop j) := by
  induction h with
  | ended => rw [List.drop_length]; rfl
  | @other i c hc hp =>
    refine skipFrom_endsLine ?_
    rw [drop_of_getElem? hc]
    simpa [EndsLine] using hp
  | more hc hp _ ih =>
    rw [drop_of_getElem? hc, SpaceSet.skipFrom, if_pos (by simpa using hp), ih]

theorem Skip.skipBlanks (h : Skip b i j) : SpaceSet.all.skipBlanks (b.drop i) = b.drop j := by
  induction h with
  | @spaces i j h hother =>
    rw [h.skipSpaces]
    rcases hother with rfl | ⟨c, hc, hne⟩
    · rw [List.drop_length]
      rfl
    · rw [drop_of_getElem? hc]
      exact skipBlanks_solid (h.stop hc) hne
  | @comment i j k l h hc hk _ ih =>
    have hline := hk.skipComment
    rw [drop_of_getElem? hc] at hline
    rw [h.skipSpaces, ← ih, ← hline, drop_of_getElem? hc]
    rfl

/-- Behind blanks stands the end of the text, a closing bracket or the start of a form. -/
theorem Skip.starts {c : UInt8} (h : Skip b i j) (hc : b[j]? = some c) (hclose : c ≠ 0x29) : Scanner.Starts c := by
  induction h with
  | spaces h hother =>
    refine ⟨h.stop hc, ?_, hclose⟩
    rcases hother with rfl | ⟨d, hd, hne⟩
    · exact absurd (lt_of_getElem? hc) (Nat.lt_irrefl _)
    · obtain rfl := Option.some.inj (hc.symm.trans hd)
      exact hne
  | comment _ _ _ _ ih => exact ih hc

theorem offset_drop (hij : i ≤ j) (hj : j ≤ b.length) : i + ((b.drop i).length - (b.drop j).length) = j := by
  rw [List.length_drop, List.length_drop]
  omega

/-- A scanner between forms moves through blanks. -/
theorem Skip.next (h : Skip b i j) (outer : List Frame) :
    Scanner.next { offset := i, frames := outer } (b.drop i) =
      Scanner.next { offset := j, frames := outer } (b.drop j) := by
  rw [Scanner.next_skipBlanks, h.skipBlanks, offset_drop h.le.1 h.le.2]

theorem Skip.reading (h : Skip b i j) (outer : List Frame) :
    Scanner.reading { offset := i, frames := outer } (b.drop i) =
      Scanner.reading { offset := j, frames := outer } (b.drop j) := by
  rw [Scanner.reading, Scanner.reading, h.next]

/-! ## Outcomes -/

/-- The outcome with the text that is left in place of its offset. -/
def Outcome.reading (b : Bytes) : Outcome → Reading
  | .ok (x, k) => .ok (x, b.drop k)
  | .error e => .error e

/-- Inside of the text the text that is left tells its offset. -/
theorem Outcome.Within.reading_inj {o o' : Outcome} (h : o.Within b i) (h' : o'.Within b i)
    (heq : o.reading b = o'.reading b) : o = o' := by
  cases o with
  | error e =>
    cases o' with
    | error e' =>
      cases heq
      rfl
    | ok r' => cases heq
  | ok r =>
    cases o' with
    | error e' => cases heq
    | ok r' =>
      obtain ⟨x, j⟩ := r
      obtain ⟨x', j'⟩ := r'
      have heq' : (x, b.drop j) = (x', b.drop j') := Except.ok.inj heq
      obtain ⟨rfl, hdrop⟩ := Prod.mk.inj heq'
      have hlen := congrArg List.length hdrop
      rw [List.length_drop, List.length_drop] at hlen
      have hj : j ≤ b.length := h.2
      have hj' : j' ≤ b.length := h'.2
      obtain rfl : j = j' := by omega
      rfl

/-- What the definitions say about the outcome of a call at the offset `i`. -/
def Task.reading (b : Bytes) (i : Nat) : Task → Reading
  | read g => g.read i (b.drop i)
  | choose all gs first => Grammar.readAny all gs first i (b.drop i)
  | items start xs => Scanner.reading { offset := i, frames := [.list start xs.reverse] } (b.drop i)
  | characters start v => Scanner.reading { offset := i, mode := .string start v.reverse } (b.drop i)

theorem next_of_form_ok {x : Form} {r : Bytes} (h : Grammar.form.read i (b.drop i) = .ok (x, r)) :
    Scanner.next { offset := i } (b.drop i) = .ok (x, r) := by
  rw [Grammar.read] at h
  split at h
  · next p hp =>
    cases h
    exact hp
  · cases h

theorem next_of_form_error {e : ReadError} (h : Grammar.form.read i (b.drop i) = .error (k, e)) :
    ∃ f, Scanner.next { offset := i } (b.drop i) = .error f ∧ f.offset = k ∧ f.error = e := by
  rw [Grammar.read] at h
  split at h
  · cases h
  · next f hf =>
    cases h
    exact ⟨f, hf, rfl, rfl⟩

/-- A form that is read stops where the text that is left begins. -/
theorem stop_of_next {x : Form} (hi : i ≤ b.length) (hk : k ≤ b.length)
    (h : Scanner.next { offset := i } (b.drop i) = .ok (x, b.drop k)) : x.span.stop = k := by
  obtain ⟨u, hu, hstop⟩ := Scanner.next_stop rfl rfl (by simp [Scanner.Aligned]) h
  have hlen := congrArg List.length hu
  rw [List.length_drop, List.length_append, List.length_drop] at hlen
  change x.span.stop = i + u.length at hstop
  omega

/-! ## The rules agree with the definitions -/

theorem readMarked_other {mark : UInt8} (h : Other b i mark) (g : Grammar) (inside : Scanner) :
    readMarked g mark inside i (b.drop i) = .error (i, .wanted g) := by
  rcases h with rfl | ⟨c, hc, hne⟩
  · rw [List.drop_length]
    rfl
  · rw [drop_of_getElem? hc, readMarked_of_ne hne]

/-- An item of a list that cannot be read. -/
theorem reading_item_error {c : UInt8} (hc : b[i]? = some c) (hstarts : Scanner.Starts c) {f : Fault}
    (hf : Scanner.next { offset := i } (b.drop i) = .error f) (start : Nat) (xs : List Form) :
    Scanner.reading { offset := i, frames := [.list start xs.reverse] } (b.drop i) =
      .error (f.offset, .item xs.length f.error) := by
  rw [drop_of_getElem? hc] at hf ⊢
  have hnext := Scanner.next_starts [.list start xs.reverse] i hstarts (b.drop (i + 1))
  rw [hf] at hnext
  rw [Scanner.reading_error hnext, Fault.error_inside_list (Scanner.framed_of_starts hstarts hf),
    List.length_reverse]
  rfl

/-- Behind an item of a list the list goes on. -/
theorem reading_item {c : UInt8} (hc : b[i]? = some c) (hstarts : Scanner.Starts c) {x : Form} {r : Bytes}
    (hnext : Scanner.next { offset := i } (b.drop i) = .ok (x, r)) (start : Nat) (xs : List Form) :
    Scanner.reading { offset := i, frames := [.list start xs.reverse] } (b.drop i) =
      Scanner.reading { offset := x.span.stop, frames := [.list start (xs ++ [x]).reverse] } r := by
  rw [drop_of_getElem? hc] at hnext ⊢
  rw [Scanner.reading, Scanner.next_starts _ i hstarts, hnext, List.reverse_append]
  rfl

/-- The word between delimiters. -/
theorem Run.word (h : Run b (!isDelimiter ·) i j) : atomText (b.drop i) = Span.text b ⟨i, j⟩ ∧
    afterAtom (b.drop i) = b.drop j ∧ spanOf i (Span.text b ⟨i, j⟩) = ⟨i, j⟩ := by
  refine ⟨h.takeWhile, h.dropWhile, ?_⟩
  rw [spanOf, Span.text_length h.le.2, Nat.add_sub_cancel' h.le.1]

theorem Run.readNumber_eq (h : Run b (!isDelimiter ·) i j) {x : Option Form}
    (hx : number? ⟨i, j⟩ (Span.text b ⟨i, j⟩) = x) :
    readNumber i (b.drop i) = x.elim (.error (i, .wanted .num)) fun x => .ok (x, b.drop j) := by
  obtain ⟨htext, hafter, hspan⟩ := h.word
  rw [readNumber, htext, hafter, hspan, hx]
  cases x <;> rfl

theorem Run.readIdent_eq (h : Run b (!isDelimiter ·) i j) (hlt : i < j) {k : Option Nat}
    (hk : badRune? (Span.text b ⟨i, j⟩) = k) :
    readIdent i (b.drop i) = k.elim (.ok (.ident ⟨i, j⟩ (Span.text b ⟨i, j⟩), b.drop j))
      fun k => .error (i + k, .badRune) := by
  obtain ⟨htext, hafter, hspan⟩ := h.word
  have hne : (Span.text b ⟨i, j⟩).isEmpty = false := by
    have hlen := Span.text_length (i := i) h.le.2
    cases ht : Span.text b ⟨i, j⟩ with
    | nil =>
      rw [ht, List.length_nil] at hlen
      omega
    | cons => rfl
  rw [readIdent, htext, hafter, hspan, hne, hk]
  cases k <;> rfl

/-- **The outcome of a call** is what the definitions say. -/
theorem Call.reading_eq {task : Task} {o : Outcome} (h : Call b task i o) : task.reading b i = o.reading b := by
  induction h with
  | form_end h =>
    rw [Task.reading, Grammar.read, h.next [], List.drop_length]
    rfl
  | form_close h hc =>
    rw [Task.reading, Grammar.read, h.next [], drop_of_getElem? hc]
    rfl
  | @form i j c o h hc hclose _ ih =>
    have hform : Grammar.form.read i (b.drop i) = Grammar.form.read j (b.drop j) := by
      rw [Grammar.read, Grammar.read, h.next []]
    rw [← ih, Task.reading, Task.reading, hform, drop_of_getElem? hc, Grammar.read_form_eq (h.starts hc hclose)]
  | list_other h | quote_other h | string_other h =>
    rw [Task.reading, Grammar.read, readMarked_other h]
    rfl
  | list hc _ ih =>
    rw [← ih, Task.reading, drop_of_getElem? hc, Grammar.read_list_mark]
    rfl
  | items_end h =>
    rw [Task.reading, h.reading, List.drop_length]
    rfl
  | items_close h hc =>
    rw [Task.reading, Scanner.reading, h.next, drop_of_getElem? hc, Scanner.next_list_close, List.reverse_reverse]
    rfl
  | items_error h hc hclose _ ih =>
    obtain ⟨f, hf, rfl, rfl⟩ := next_of_form_error ih
    rw [Task.reading, h.reading, reading_item_error hc (h.starts hc hclose) hf]
    rfl
  | items_more h hc hclose hitem _ ih₁ ih₂ =>
    have hnext := next_of_form_ok ih₁
    have hk := (hitem.within h.le.2 (Task.within_of_none rfl)).2
    rw [← ih₂, Task.reading, h.reading, reading_item hc (h.starts hc hclose) hnext, stop_of_next h.le.2 hk hnext]
    rfl
  | quote_error hc _ ih =>
    obtain ⟨f, hf, rfl, rfl⟩ := next_of_form_error ih
    rw [Task.reading, drop_of_getElem? hc, Grammar.read_quote_mark, Scanner.reading_quote_error _ _ hf]
    rfl
  | quote hc hform ih =>
    have hnext := next_of_form_ok ih
    have hk := (hform.within (lt_of_getElem? hc) (Task.within_of_none rfl)).2
    rw [Task.reading, drop_of_getElem? hc, Grammar.read_quote_mark, Scanner.reading_quote _ _ hnext, quotedForm,
      stop_of_next (lt_of_getElem? hc) hk hnext]
    rfl
  | string hc _ ih =>
    rw [← ih, Task.reading, drop_of_getElem? hc, Grammar.read_string_mark]
    rfl
  | characters_end =>
    rw [Task.reading, List.drop_length]
    rfl
  | characters_close hc =>
    rw [Task.reading, drop_of_getElem? hc, Scanner.reading_string_close, List.reverse_reverse]
    rfl
  | characters_escaped hc hd _ ih =>
    rw [← ih, Task.reading, Task.reading, drop_of_getElem? hc, drop_of_getElem? hd,
      Scanner.reading_of_step (Scanner.step_string_escape ..) rfl rfl,
      Scanner.reading_of_step (Scanner.step_escape ..) rfl rfl, List.reverse_append]
    rfl
  | characters_last hc hend _ ih =>
    rw [← ih, Task.reading, Task.reading, drop_of_getElem? hc,
      Scanner.reading_of_step (Scanner.step_string_escape ..) rfl rfl, hend, List.drop_length]
    rfl
  | characters_plain hc h22 h5C _ ih =>
    rw [← ih, Task.reading, Task.reading, drop_of_getElem? hc,
      Scanner.reading_of_step (Scanner.step_string_plain _ _ _ h22 h5C) rfl rfl, List.reverse_append]
    rfl
  | num_other h hx | num h hx =>
    rw [Task.reading, Grammar.read, h.readNumber_eq hx]
    rfl
  | @ident_other i h =>
    have hnil : Span.text b ⟨i, i⟩ = [] := List.drop_take_self ..
    rw [Task.reading, Grammar.read, readIdent, h.word.1, hnil]
    rfl
  | ident_error h hlt hk | ident h hlt hk =>
    rw [Task.reading, Grammar.read, h.readIdent_eq hlt hk]
    rfl
  | atom_num _ ih =>
    rw [Task.reading, Grammar.read] at ih
    rw [Task.reading, Grammar.read, ih]
    rfl
  | atom_ident _ _ ih₁ ih₂ =>
    rw [Task.reading, Grammar.read] at ih₁
    rw [← ih₂, Task.reading, Task.reading, Grammar.read, Grammar.read, ih₁]
    rfl
  | anyOf _ ih => rw [← ih, Task.reading, Task.reading, Grammar.read]
  | choose_none | choose_error =>
    rw [Task.reading, Grammar.readAny]
    rfl
  | choose _ ih => exact Grammar.readAny_of_ok ih
  | choose_pass _ _ ih₁ ih₂ => rw [← ih₂, Task.reading, Task.reading, Grammar.readAny_of_pass ih₁]
  | choose_later _ hj _ ih₁ ih₂ => rw [← ih₂, Task.reading, Task.reading, Grammar.readAny_of_later ih₁ hj]

/-- **A call has exactly one outcome**, and reading has the same. -/
theorem call_iff (g : Grammar) (hi : i ≤ b.length) :
    ∃ o, (∀ o', Call b (.read g) i o' ↔ o' = o) ∧ g.read i (b.drop i) = o.reading b ∧ o.Within b i := by
  obtain ⟨o, ho⟩ := exists_call hi g
  have hwithin := ho.within hi (Task.within_of_none rfl)
  refine ⟨o, fun o' => ⟨fun ho' => ?_, fun h => h ▸ ho⟩, ho.reading_eq, hwithin⟩
  have hwithin' := ho'.within hi (Task.within_of_none rfl)
  exact hwithin'.reading_inj hwithin (ho'.reading_eq.symm.trans ho.reading_eq)

/-- Form after form is read as the rules say. -/
theorem Calls.readMany_eq {g : Grammar} {xs : List Form} {e : Option (Nat × ReadError)} (h : Calls b g j xs e)
    (hskip : Skip b i j) : g.readMany i (b.drop i) = (xs, e) := by
  have hs := hskip.skipBlanks
  have hoffset := offset_drop hskip.le.1 hskip.le.2
  induction h generalizing i with
  | ended =>
    rw [List.drop_length] at hs
    exact Grammar.readMany_of_nil hs
  | @error j e hlt hcall =>
    rw [List.drop_eq_getElem_cons hlt] at hs hoffset
    refine Grammar.readMany_of_error hs ?_
    rw [hoffset, ← List.drop_eq_getElem_cons hlt]
    exact hcall.reading_eq
  | @more j k l x xs e hlt hcall hskip' _ ih =>
    rw [List.drop_eq_getElem_cons hlt] at hs hoffset
    have hread : g.read (i + ((b.drop i).length - (b[j] :: b.drop (j + 1)).length)) (b[j] :: b.drop (j + 1)) =
        .ok (x, b.drop k) := by
      rw [hoffset, ← List.drop_eq_getElem_cons hlt]
      exact hcall.reading_eq
    obtain ⟨hjk, hk⟩ := hcall.within (Nat.le_of_lt hlt) (Task.within_of_none rfl)
    have hik : i + ((b.drop i).length - (b.drop k).length) = k :=
      offset_drop (hskip.le.1.trans (Nat.le_of_lt hjk)) hk
    rw [Grammar.readMany_of_ok hs hread, hik, ih hskip' hskip'.skipBlanks (offset_drop hskip'.le.1 hskip'.le.2)]

/-- **Reading form after form has exactly one outcome.** -/
theorem reads_iff (b : Bytes) (g : Grammar) (xs : List Form) (e : Option (Nat × ReadError)) :
    Reads b g xs e ↔ g.readMany 0 b = (xs, e) := by
  have hsound {ys : List Form} {d : Option (Nat × ReadError)} (h : Reads b g ys d) : g.readMany 0 b = (ys, d) := by
    obtain ⟨i, hskip, hcalls⟩ := h
    exact hcalls.readMany_eq hskip
  refine ⟨hsound, fun h => ?_⟩
  obtain ⟨ys, d, hreads⟩ := exists_reads b g
  obtain ⟨rfl, rfl⟩ := Prod.mk.inj (h.symm.trans (hsound hreads))
  exact hreads

end Descent

/-- **Reading makes progress and stays inside of the text.**  For every grammar, from every place of every text,
the calls of recursive descent end without a look outside of the text, with one outcome, which is that of
`Grammar.read`; a success lies behind the start, an error not before it, and both inside of the text.  So the calls
for one form after the other end for every source, and their forms and error are those of `Source.readAllBy`; for
the grammar of forms the scan of `Source.readAll` gives the same. -/
theorem Grammar.read_progress (g : Grammar) :
    (∀ (b : Bytes) (st : Nat), st ≤ b.length → ∃ o : Descent.Outcome,
      (∀ o', Descent.Call b (.read g) st o' ↔ o' = o) ∧ g.read st (b.drop st) = o.reading b ∧
      (∀ x i, o = .ok (x, i) → st < i ∧ i ≤ b.length) ∧ ∀ i e, o = .error (i, e) → st ≤ i ∧ i ≤ b.length) ∧
    ∀ s : Source, ∃ xs e, (∀ ys d, Descent.Reads s.text g ys d ↔ ys = xs ∧ d = e) ∧
      s.readAllBy g = (xs, e.map fun e => s.problemAt e.1 (.unreadable e.2)) ∧
      (g = .form → s.readAll = s.readAllBy g) := by
  refine ⟨fun b st hst => ?_, fun s => ?_⟩
  · obtain ⟨o, hcall, hread, hwithin⟩ := Descent.call_iff g hst
    refine ⟨o, hcall, hread, ?_, ?_⟩
    · rintro x i rfl
      exact hwithin
    · rintro i e rfl
      exact hwithin
  · refine ⟨_, _, fun ys d => ?_, rfl, ?_⟩
    · rw [Descent.reads_iff, Prod.ext_iff, eq_comm, @eq_comm _ d]
    · rintro rfl
      exact s.readAll_eq_readAllBy

/-- A choice that begins with a choice between nothing reads a quoted list and stops inside of the text, and so
does the error of a list that is not closed. -/
theorem Grammar.read_progress_quoted_list :
    (1 ≤ (utf8 "a'(b)c").length ∧ ∃ x i, 1 < i ∧ i ≤ 6 ∧
      ∀ o', Descent.Call (utf8 "a'(b)c") (.read (.anyOf [.anyOf [], .quote])) 1 o' ↔ o' = .ok (x, i)) ∧
    1 ≤ (utf8 "a'(b").length ∧ ∃ i e, 1 ≤ i ∧ i ≤ 4 ∧
      ∀ o', Descent.Call (utf8 "a'(b") (.read (.anyOf [.anyOf [], .quote])) 1 o' ↔ o' = .error (i, e) := by
  refine ⟨⟨by decide, ?_⟩, by decide, ?_⟩
  · obtain ⟨o, hcall, hread, hok, -⟩ :=
      (read_progress (.anyOf [.anyOf [], .quote])).1 (utf8 "a'(b)c") 1 (by decide)
    cases o with
    | ok r =>
      obtain ⟨hlt, hle⟩ := hok r.1 r.2 rfl
      exact ⟨r.1, r.2, hlt, hle, hcall⟩
    | error r => cases hread
  · obtain ⟨o, hcall, hread, -, herr⟩ := (read_progress (.anyOf [.anyOf [], .quote])).1 (utf8 "a'(b") 1 (by decide)
    cases o with
    | ok r => cases hread
    | error r =>
      obtain ⟨hge, hle⟩ := herr r.1 r.2 rfl
      exact ⟨r.1, r.2, hge, hle, hcall⟩

end RegisterMachine
