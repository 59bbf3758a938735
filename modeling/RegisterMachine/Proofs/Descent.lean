import RegisterMachine.Proofs.Spans

/-!
# Reading by recursive descent

A reader that goes through a text with a cursor and calls itself for what stands inside of lists, quotes and
choices, as inference rules: one rule for each way in which a call comes to its outcome.  A rule looks at the byte
at the cursor only where there is one, so that a derivation is a run that ends and never looks outside of the text.

* `Descent.Run`, `Descent.Skip`: the loops through bytes of one kind and through blanks.
* `Descent.Call b task i o`: the call for `task` at the offset `i` of the text `b` ends with the outcome `o`.
* `Descent.Call.within`: where a call ends: behind its start if it succeeds, not before it if it fails, and inside
  the text.
* `Descent.exists_call`: every call ends.
* `Descent.Calls`, `Descent.exists_calls`: form after form.
-/

namespace RegisterMachine

theorem Span.text_length {b : Bytes} {i j : Nat} (hj : j ≤ b.length) : (Span.text b ⟨i, j⟩).length = j - i := by
  rw [Span.text, List.length_drop, List.length_take, Nat.min_eq_left hj]

/-- A word that is a number is not empty. -/
theorem number?_ne_nil {span : Span} {w : Bytes} {x : Form} (h : number? span w = some x) : w ≠ [] := by
  rintro rfl
  cases h

namespace Descent

/-! ## The rules -/

/-- The outcome of a call: the form and the offset behind it, or the offset of an error and the error. -/
abbrev Outcome := Except (Nat × ReadError) (Form × Nat)

/-- The text ends at the offset, or a byte other than `c` stands there. -/
def Other (b : Bytes) (i : Nat) (c : UInt8) : Prop := i = b.length ∨ ∃ d, b[i]? = some d ∧ d ≠ c

/-- The loop that goes on for as long as there is a byte with the property. -/
inductive Run (b : Bytes) (p : UInt8 → Bool) : Nat → Nat → Prop
  | ended : Run b p b.length b.length
  | other {i : Nat} {c : UInt8} : b[i]? = some c → p c = false → Run b p i i
  | more {i j : Nat} {c : UInt8} : b[i]? = some c → p c = true → Run b p (i + 1) j → Run b p i j

/-- The loop through spaces and comments. -/
inductive Skip (b : Bytes) : Nat → Nat → Prop
  | spaces {i j : Nat} : Run b isSpace i j → Other b j (byte ';') → Skip b i j
  | comment {i j k l : Nat} :
    Run b isSpace i j → b[j]? = some (byte ';') → Run b (· != byte '\n') j k → Skip b k l →
      Skip b i l

/-- What a call is for. -/
inductive Task where
  /-- One form of a kind. -/
  | read (g : Grammar)
  /-- The alternatives `rest` of a choice, behind others of which `first` decides the error. -/
  | choose (all rest : List Grammar) (first : Option (Nat × ReadError))
  /-- The inside of the list that starts at `start`, behind the items `xs`. -/
  | items (start : Nat) (xs : List Form)
  /-- The inside of the string that starts at `start`, behind the bytes `v` of its value. -/
  | characters (start : Nat) (v : Bytes)

/-- How calls come to their outcomes. -/
inductive Call (b : Bytes) : Task → Nat → Outcome → Prop
  -- a form is one of four kinds, behind blanks
  | form_end {i : Nat} : Skip b i b.length → Call b (.read .form) i (.error (b.length, .endOfInput))
  | form_close {i j : Nat} : Skip b i j → b[j]? = some 0x29 → Call b (.read .form) i (.error (j, .unbalanced))
  | form {i j : Nat} {c : UInt8} {o : Outcome} : Skip b i j → b[j]? = some c → c ≠ 0x29 →
      Call b (.read (.anyOf Grammar.formAlternatives)) j o → Call b (.read .form) i o
  -- lists
  | list_other {i : Nat} : Other b i 0x28 → Call b (.read .list) i (.error (i, .wanted .list))
  | list {i : Nat} {o : Outcome} : b[i]? = some 0x28 → Call b (.items i []) (i + 1) o → Call b (.read .list) i o
  | items_end {start i : Nat} {xs : List Form} : Skip b i b.length →
      Call b (.items start xs) i (.error (b.length, .openedAt start .endOfInput))
  | items_close {start i j : Nat} {xs : List Form} : Skip b i j → b[j]? = some 0x29 →
      Call b (.items start xs) i (.ok (.list ⟨start, j + 1⟩ xs, j + 1))
  | items_error {start i j k : Nat} {xs : List Form} {c : UInt8} {e : ReadError} : Skip b i j → b[j]? = some c →
      c ≠ 0x29 → Call b (.read .form) j (.error (k, e)) →
      Call b (.items start xs) i (.error (k, .item xs.length e))
  | items_more {start i j k : Nat} {xs : List Form} {c : UInt8} {x : Form} {o : Outcome} : Skip b i j →
      b[j]? = some c → c ≠ 0x29 → Call b (.read .form) j (.ok (x, k)) → Call b (.items start (xs ++ [x])) k o →
      Call b (.items start xs) i o
  -- quotes
  | quote_other {i : Nat} : Other b i 0x27 → Call b (.read .quote) i (.error (i, .wanted .quote))
  | quote_error {i k : Nat} {e : ReadError} : b[i]? = some 0x27 → Call b (.read .form) (i + 1) (.error (k, e)) →
      Call b (.read .quote) i (.error (k, .quoted e))
  | quote {i k : Nat} {x : Form} : b[i]? = some 0x27 → Call b (.read .form) (i + 1) (.ok (x, k)) →
      Call b (.read .quote) i (.ok (.list ⟨i, k⟩ [.ident ⟨i, i + 1⟩ Form.quoteWord, x], k))
  -- strings; a backslash makes the byte behind it literal, or stands for itself at the end
  | string_other {i : Nat} : Other b i 0x22 → Call b (.read .string) i (.error (i, .wanted .string))
  | string {i : Nat} {o : Outcome} : b[i]? = some 0x22 → Call b (.characters i []) (i + 1) o →
      Call b (.read .string) i o
  | characters_end {start : Nat} {v : Bytes} :
      Call b (.characters start v) b.length (.error (b.length, .unterminated .endOfInput))
  | characters_close {start i : Nat} {v : Bytes} : b[i]? = some 0x22 →
      Call b (.characters start v) i (.ok (.string ⟨start, i + 1⟩ v, i + 1))
  | characters_escaped {start i : Nat} {v : Bytes} {c : UInt8} {o : Outcome} : b[i]? = some 0x5C →
      b[i + 1]? = some c → Call b (.characters start (v ++ [c])) (i + 2) o → Call b (.characters start v) i o
  | characters_last {start i : Nat} {v : Bytes} {o : Outcome} : b[i]? = some 0x5C → i + 1 = b.length →
      Call b (.characters start (v ++ [0x5C])) (i + 1) o → Call b (.characters start v) i o
  | characters_plain {start i : Nat} {v : Bytes} {c : UInt8} {o : Outcome} : b[i]? = some c → c ≠ 0x22 → c ≠ 0x5C →
      Call b (.characters start (v ++ [c])) (i + 1) o → Call b (.characters start v) i o
  -- words between delimiters
  | num_other {i j : Nat} : Run b (!isDelimiter ·) i j → number? ⟨i, j⟩ (Span.text b ⟨i, j⟩) = none →
      Call b (.read .num) i (.error (i, .wanted .num))
  | num {i j : Nat} {x : Form} : Run b (!isDelimiter ·) i j → number? ⟨i, j⟩ (Span.text b ⟨i, j⟩) = some x →
      Call b (.read .num) i (.ok (x, j))
  | ident_other {i : Nat} : Run b (!isDelimiter ·) i i → Call b (.read .ident) i (.error (i, .wanted .ident))
  | ident_error {i j k : Nat} : Run b (!isDelimiter ·) i j → i < j → badRune? (Span.text b ⟨i, j⟩) = some k →
      Call b (.read .ident) i (.error (i + k, .badRune))
  | ident {i j : Nat} : Run b (!isDelimiter ·) i j → i < j → badRune? (Span.text b ⟨i, j⟩) = none →
      Call b (.read .ident) i (.ok (.ident ⟨i, j⟩ (Span.text b ⟨i, j⟩), j))
  | atom_num {i : Nat} {r : Form × Nat} : Call b (.read .num) i (.ok r) → Call b (.read .atom) i (.ok r)
  | atom_ident {i : Nat} {e : Nat × ReadError} {o : Outcome} : Call b (.read .num) i (.error e) →
      Call b (.read .ident) i o → Call b (.read .atom) i o
  -- choices; an alternative that fails where it started is passed over
  | anyOf {i : Nat} {gs : List Grammar} {o : Outcome} :
    Call b (.choose gs gs none) i o → Call b (.read (.anyOf gs)) i o
  | choose_none {i : Nat} {all : List Grammar} : Call b (.choose all [] none) i (.error (i, .expected all))
  | choose_error {i : Nat} {all : List Grammar} {e : Nat × ReadError} :
    Call b (.choose all [] (some e)) i (.error e)
  | choose {i : Nat} {all gs : List Grammar} {g : Grammar} {first : Option (Nat × ReadError)} {r : Form × Nat} :
      Call b (.read g) i (.ok r) → Call b (.choose all (g :: gs) first) i (.ok r)
  | choose_pass {i : Nat} {all gs : List Grammar} {g : Grammar} {first : Option (Nat × ReadError)} {e : ReadError}
      {o : Outcome} : Call b (.read g) i (.error (i, e)) → Call b (.choose all gs first) i o →
      Call b (.choose all (g :: gs) first) i o
  | choose_later {i j : Nat} {all gs : List Grammar} {g : Grammar} {first : Option (Nat × ReadError)}
    {e : ReadError}
      {o : Outcome} : Call b (.read g) i (.error (j, e)) → j ≠ i →
      Call b (.choose all gs (first.or (some (j, .within g e)))) i o → Call b (.choose all (g :: gs) first) i o

/-- Form after form, with blanks between them, up to the first error. -/
inductive Calls (b : Bytes) (g : Grammar) : Nat → List Form → Option (Nat × ReadError) → Prop
  | ended : Calls b g b.length [] none
  | error {i : Nat} {e : Nat × ReadError} : i < b.length → Call b (.read g) i (.error e) → Calls b g i [] (some e)
  | more {i j k : Nat} {x : Form} {xs : List Form} {e : Option (Nat × ReadError)} : i < b.length →
      Call b (.read g) i (.ok (x, j)) → Skip b j k → Calls b g k xs e → Calls b g i (x :: xs) e

/-- All forms of a text: behind blanks, form after form. -/
def Reads (b : Bytes) (g : Grammar) (xs : List Form) (e : Option (Nat × ReadError)) : Prop :=
  ∃ i, Skip b 0 i ∧ Calls b g i xs e

variable {b : Bytes} {i j : Nat}

/-! ## Loops -/

theorem lt_of_getElem? {c : UInt8} (h : b[i]? = some c) : i < b.length := (List.getElem?_eq_some_iff.mp h).1

theorem Run.le {p : UInt8 → Bool} (h : Run b p i j) : i ≤ j ∧ j ≤ b.length := by
  induction h with
  | ended => exact ⟨Nat.le_refl _, Nat.le_refl _⟩
  | other hc _ => exact ⟨Nat.le_refl _, Nat.le_of_lt (lt_of_getElem? hc)⟩
  | more _ _ _ ih => exact ⟨Nat.le_of_succ_le ih.1, ih.2⟩

theorem Skip.le (h : Skip b i j) : i ≤ j ∧ j ≤ b.length := by
  induction h with
  | spaces h _ => exact h.le
  | comment h₁ _ h₂ _ ih => exact ⟨h₁.le.1.trans (h₂.le.1.trans ih.1), ih.2⟩

/-- The text ends at the offset, or a byte stands there. -/
theorem end_or_byte (hi : i ≤ b.length) : i = b.length ∨ ∃ c, b[i]? = some c := by
  rcases Nat.eq_or_lt_of_le hi with h | h
  · exact .inl h
  · exact .inr ⟨b[i], List.getElem?_eq_getElem h⟩

theorem byte_or_other (hi : i ≤ b.length) (c : UInt8) : b[i]? = some c ∨ Other b i c := by
  rcases end_or_byte hi with h | ⟨d, hd⟩
  · exact .inr (.inl h)
  · by_cases hc : d = c
    · exact .inl (hc ▸ hd)
    · exact .inr (.inr ⟨d, hd, hc⟩)

/-- Induction from the end of a text to its start. -/
@[elab_as_elim]
theorem backwards {motive : (i : Nat) → i ≤ b.length → Prop}
    (step : ∀ i hi, (∀ j (hj : j ≤ b.length), i < j → motive j hj) → motive i hi) (i : Nat) (hi : i ≤ b.length) :
    motive i hi := by
  induction hn : b.length - i using Nat.strongRecOn generalizing i with
  | ind n ih =>
    refine step i hi fun j hj hij => ih (b.length - j) ?_ j hj rfl
    omega

theorem exists_run (p : UInt8 → Bool) (hi : i ≤ b.length) : ∃ j, Run b p i j := by
  induction i, hi using backwards with
  | step i hi ih =>
    rcases end_or_byte hi with rfl | ⟨c, hc⟩
    · exact ⟨_, .ended⟩
    cases hp : p c with
    | false => exact ⟨i, .other hc hp⟩
    | true =>
      obtain ⟨j, hj⟩ := ih (i + 1) (lt_of_getElem? hc) (Nat.lt_succ_self i)
      exact ⟨j, .more hc hp hj⟩

/-- A loop that meets a byte with the property goes on. -/
theorem Run.lt {p : UInt8 → Bool} {c : UInt8} (h : Run b p i j) (hc : b[i]? = some c) (hp : p c = true) :
    i < j := by
  cases h with
  | ended => exact absurd (lt_of_getElem? hc) (Nat.lt_irrefl _)
  | other hd hp' =>
    obtain rfl := Option.some.inj (hc.symm.trans hd)
    rw [hp] at hp'
    cases hp'
  | more _ _ h => exact h.le.1

theorem exists_skip (hi : i ≤ b.length) : ∃ j, Skip b i j := by
  induction i, hi using backwards with
  | step i hi ih =>
    obtain ⟨j, hj⟩ := exists_run isSpace hi
    rcases byte_or_other hj.le.2 (byte ';') with hc | hc
    · obtain ⟨k, hk⟩ := exists_run (· != byte '\n') hj.le.2
      obtain ⟨l, hl⟩ := ih k hk.le.2 (Nat.lt_of_le_of_lt hj.le.1 (hk.lt hc (by decide)))
      exact ⟨l, .comment hj hc hk hl⟩
    · exact ⟨j, .spaces hj hc⟩

/-- Behind blanks the text ends, a bracket is closed or another byte stands. -/
theorem skip_cases (hi : i ≤ b.length) : Skip b i b.length ∨ (∃ j, Skip b i j ∧ b[j]? = some 0x29) ∨
    ∃ j c, Skip b i j ∧ b[j]? = some c ∧ c ≠ 0x29 := by
  obtain ⟨j, hj⟩ := exists_skip hi
  rcases end_or_byte hj.le.2 with rfl | ⟨c, hc⟩
  · exact .inl hj
  by_cases hclose : c = 0x29
  · exact .inr (.inl ⟨j, hj, hclose ▸ hc⟩)
  · exact .inr (.inr ⟨j, c, hj, hc, hclose⟩)

/-! ## Where calls end -/

/-- The outcome of a call that started at `i` lies inside the text: behind `i` if it is a success, not before `i`
if it is an error. -/
def Outcome.Within (b : Bytes) (i : Nat) : Outcome → Prop
  | .ok (_, j) => i < j ∧ j ≤ b.length
  | .error (j, _) => i ≤ j ∧ j ≤ b.length

/-- The error that a task has in hand. -/
def Task.pending : Task → Option (Nat × ReadError)
  | choose _ _ first => first
  | _ => none

/-- An error that a task has in hand lies inside the text, not before `i`. -/
def Task.Within (b : Bytes) (i : Nat) (task : Task) : Prop := ∀ e ∈ task.pending, Outcome.Within b i (.error e)

theorem Task.within_of_none {task : Task} (h : task.pending = none) : task.Within b i := by
  intro e he
  rw [h] at he
  cases he

theorem Outcome.Within.mono {o : Outcome} (h : o.Within b j) (hij : i ≤ j) : o.Within b i := by
  cases o with
  | ok r => exact ⟨Nat.lt_of_le_of_lt hij h.1, h.2⟩
  | error e => exact ⟨Nat.le_trans hij h.1, h.2⟩

/-- **Calls make progress and stay inside the text.** -/
theorem Call.within {task : Task} {o : Outcome} (h : Call b task i o) (hi : i ≤ b.length) (ht : task.Within b i) :
    o.Within b i := by
  induction h with
  | form_end h => exact ⟨h.le.1, Nat.le_refl _⟩
  | form_close h _ => exact h.le
  | form h _ _ _ ih => exact (ih h.le.2 (Task.within_of_none rfl)).mono h.le.1
  | list_other _ | quote_other _ | string_other _ | num_other _ _ | ident_other _ | choose_none =>
    exact ⟨Nat.le_refl _, hi⟩
  | list hc _ ih | string hc _ ih | characters_plain hc _ _ _ ih =>
    exact (ih (lt_of_getElem? hc) (Task.within_of_none rfl)).mono (Nat.le_succ _)
  | items_end h => exact ⟨h.le.1, Nat.le_refl _⟩
  | items_close h hc => exact ⟨Nat.lt_succ_of_le h.le.1, lt_of_getElem? hc⟩
  | items_error h _ _ _ ih =>
    obtain ⟨hle, hend⟩ := ih h.le.2 (Task.within_of_none rfl)
    exact ⟨h.le.1.trans hle, hend⟩
  | items_more h _ _ _ _ ih₁ ih₂ =>
    -- the item has moved the cursor, and the rest of the list does not move it back
    obtain ⟨hlt, hend⟩ := ih₁ h.le.2 (Task.within_of_none rfl)
    exact (ih₂ hend (Task.within_of_none rfl)).mono (h.le.1.trans (Nat.le_of_lt hlt))
  | quote_error hc _ ih =>
    obtain ⟨hle, hend⟩ := ih (lt_of_getElem? hc) (Task.within_of_none rfl)
    exact ⟨Nat.le_of_succ_le hle, hend⟩
  | quote hc _ ih =>
    obtain ⟨hlt, hend⟩ := ih (lt_of_getElem? hc) (Task.within_of_none rfl)
    exact ⟨Nat.lt_of_succ_lt hlt, hend⟩
  | characters_end => exact ⟨Nat.le_refl _, hi⟩
  | characters_close hc => exact ⟨Nat.lt_succ_self _, lt_of_getElem? hc⟩
  | characters_escaped _ hc _ ih =>
    exact (ih (lt_of_getElem? hc) (Task.within_of_none rfl)).mono (Nat.le_add_right ..)
  | characters_last _ hend _ ih =>
    exact (ih (Nat.le_of_eq hend) (Task.within_of_none rfl)).mono (Nat.le_succ _)
  | @num i j x h hx =>
    refine ⟨Nat.lt_of_le_of_ne h.le.1 ?_, h.le.2⟩
    rintro rfl
    exact number?_ne_nil hx (List.drop_take_self ..)
  | @ident_error i j k h _ hk =>
    have hle := le_of_badRune? hk
    have hj := h.le
    rw [Span.text_length hj.2] at hle
    exact ⟨Nat.le_add_right .., by omega⟩
  | ident h hlt _ => exact ⟨hlt, h.le.2⟩
  | atom_num _ ih | choose _ ih => exact ih hi (Task.within_of_none rfl)
  | atom_ident _ _ _ ih | anyOf _ ih => exact ih hi (Task.within_of_none rfl)
  | choose_error => exact ht _ rfl
  | choose_pass _ _ _ ih => exact ih hi ht
  | @choose_later i j all gs g first e o _ _ _ ih₁ ih₂ =>
    refine ih₂ hi fun d hd => ?_
    rcases Option.or_eq_some_iff.mp hd with hfirst | ⟨-, hnew⟩
    · exact ht d hfirst
    · cases hnew
      exact ih₁ hi (Task.within_of_none rfl)

/-! ## Every call ends -/

/-- What stands between delimiters ends the calls for words. -/
theorem exists_word (hi : i ≤ b.length) : (∃ o, Call b (.read .num) i o) ∧ (∃ o, Call b (.read .ident) i o) ∧
    ∃ o, Call b (.read .atom) i o := by
  obtain ⟨j, hj⟩ := exists_run (!isDelimiter ·) hi
  have hnum : ∃ o, Call b (.read .num) i o := by
    cases hx : number? ⟨i, j⟩ (Span.text b ⟨i, j⟩) with
    | none => exact ⟨_, .num_other hj hx⟩
    | some x => exact ⟨_, .num hj hx⟩
  have hident : ∃ o, Call b (.read .ident) i o := by
    rcases Nat.eq_or_lt_of_le hj.le.1 with rfl | hlt
    · exact ⟨_, .ident_other hj⟩
    cases hk : badRune? (Span.text b ⟨i, j⟩) with
    | none => exact ⟨_, .ident hj hlt hk⟩
    | some k => exact ⟨_, .ident_error hj hlt hk⟩
  refine ⟨hnum, hident, ?_⟩
  obtain ⟨o, ho⟩ := hnum
  cases o with
  | ok r => exact ⟨_, .atom_num ho⟩
  | error e =>
    obtain ⟨o, ho'⟩ := hident
    exact ⟨o, .atom_ident ho ho'⟩

/-- A choice ends if all its alternatives do. -/
theorem exists_choose (all : List Grammar) {gs : List Grammar} (h : ∀ g ∈ gs, ∃ o, Call b (.read g) i o)
    (first : Option (Nat × ReadError)) : ∃ o, Call b (.choose all gs first) i o := by
  induction gs generalizing first with
  | nil =>
    cases first with
    | none => exact ⟨_, .choose_none⟩
    | some e => exact ⟨_, .choose_error⟩
  | cons g gs ih =>
    obtain ⟨⟨o, ho⟩, hgs⟩ := List.forall_mem_cons.mp h
    cases o with
    | ok r => exact ⟨_, .choose ho⟩
    | error e =>
      obtain ⟨j, e⟩ := e
      by_cases hj : j = i
      · subst hj
        obtain ⟨o, ho'⟩ := ih hgs first
        exact ⟨o, .choose_pass ho ho'⟩
      · obtain ⟨o, ho'⟩ := ih hgs (first.or (some (j, .within g e)))
        exact ⟨o, .choose_later ho hj ho'⟩

/-- The calls that can follow each other at an offset end there. -/
structure Ends (b : Bytes) (i : Nat) : Prop where
  form : ∃ o, Call b (.read .form) i o
  items (start : Nat) (xs : List Form) : ∃ o, Call b (.items start xs) i o
  characters (start : Nat) (v : Bytes) : ∃ o, Call b (.characters start v) i o

/-- Lists, quotes and strings end if the calls behind their first byte do. -/
theorem exists_marked (hi : i ≤ b.length) (h : i < b.length → Ends b (i + 1)) : (∃ o, Call b (.read .list) i o) ∧
    (∃ o, Call b (.read .quote) i o) ∧ ∃ o, Call b (.read .string) i o := by
  refine ⟨?_, ?_, ?_⟩
  · rcases byte_or_other hi 0x28 with hc | hc
    · obtain ⟨o, ho⟩ := (h (lt_of_getElem? hc)).items i []
      exact ⟨o, .list hc ho⟩
    · exact ⟨_, .list_other hc⟩
  · rcases byte_or_other hi 0x27 with hc | hc
    · obtain ⟨o, ho⟩ := (h (lt_of_getElem? hc)).form
      cases o with
      | ok r => exact ⟨_, .quote hc ho⟩
      | error e => exact ⟨_, .quote_error hc ho⟩
    · exact ⟨_, .quote_other hc⟩
  · rcases byte_or_other hi 0x22 with hc | hc
    · obtain ⟨o, ho⟩ := (h (lt_of_getElem? hc)).characters i []
      exact ⟨o, .string hc ho⟩
    · exact ⟨_, .string_other hc⟩

/-- A form ends if the calls behind its offset do. -/
theorem exists_form (hi : i ≤ b.length) (h : ∀ j (_ : j ≤ b.length), i < j → Ends b j) :
    ∃ o, Call b (.read .form) i o := by
  rcases skip_cases hi with hj | ⟨j, hj, hc⟩ | ⟨j, c, hj, hc, hclose⟩
  · exact ⟨_, .form_end hj⟩
  · exact ⟨_, .form_close hj hc⟩
  obtain ⟨hij, hend⟩ := hj.le
  obtain ⟨hlist, hquote, hstring⟩ := exists_marked hend fun hlt => h (j + 1) hlt (Nat.lt_succ_of_le hij)
  have hall : ∀ g ∈ Grammar.formAlternatives, ∃ o, Call b (.read g) j o := by
    simp only [Grammar.formAlternatives, List.forall_mem_cons]
    exact ⟨hlist, hquote, hstring, (exists_word hend).2.2, List.forall_mem_nil _⟩
  obtain ⟨o, ho⟩ := exists_choose Grammar.formAlternatives hall none
  exact ⟨o, .form hj hc hclose (.anyOf ho)⟩

/-- The items of a list end: every item moves the cursor. -/
theorem exists_items (hi : i ≤ b.length) (h : ∀ j (_ : j ≤ b.length), i < j → Ends b j) (start : Nat)
    (xs : List Form) : ∃ o, Call b (.items start xs) i o := by
  rcases skip_cases hi with hj | ⟨j, hj, hc⟩ | ⟨j, c, hj, hc, hclose⟩
  · exact ⟨_, .items_end hj⟩
  · exact ⟨_, .items_close hj hc⟩
  obtain ⟨hij, hend⟩ := hj.le
  obtain ⟨o, ho⟩ := exists_form hend fun k hk hjk => h k hk (Nat.lt_of_le_of_lt hij hjk)
  cases o with
  | error e => exact ⟨_, .items_error hj hc hclose ho⟩
  | ok r =>
    obtain ⟨hlt, hend'⟩ := ho.within hend (Task.within_of_none rfl)
    obtain ⟨o, ho'⟩ := (h r.2 hend' (Nat.lt_of_le_of_lt hij hlt)).items start (xs ++ [r.1])
    exact ⟨o, .items_more hj hc hclose ho ho'⟩

theorem exists_characters (hi : i ≤ b.length) (h : ∀ j (_ : j ≤ b.length), i < j → Ends b j) (start : Nat)
    (v : Bytes) : ∃ o, Call b (.characters start v) i o := by
  rcases end_or_byte hi with rfl | ⟨c, hc⟩
  · exact ⟨_, .characters_end⟩
  have hnext := h (i + 1) (lt_of_getElem? hc) (Nat.lt_succ_self i)
  by_cases h22 : c = 0x22
  · exact ⟨_, .characters_close (h22 ▸ hc)⟩
  by_cases h5C : c = 0x5C
  · subst h5C
    rcases end_or_byte (lt_of_getElem? hc) with hend | ⟨d, hd⟩
    · obtain ⟨o, ho⟩ := hnext.characters start (v ++ [0x5C])
      exact ⟨o, .characters_last hc hend ho⟩
    · obtain ⟨o, ho⟩ := (h (i + 2) (lt_of_getElem? hd) (by omega)).characters start (v ++ [d])
      exact ⟨o, .characters_escaped hc hd ho⟩
  · obtain ⟨o, ho⟩ := hnext.characters start (v ++ [c])
    exact ⟨o, .characters_plain hc h22 h5C ho⟩

theorem ends (hi : i ≤ b.length) : Ends b i := by
  induction i, hi using backwards with
  | step i hi ih => exact ⟨exists_form hi ih, exists_items hi ih, exists_characters hi ih⟩

mutual

/-- **Every call ends**, for every grammar and wherever it starts in the text. -/
theorem exists_call (hi : i ≤ b.length) : ∀ g : Grammar, ∃ o, Call b (.read g) i o
  | .form => (ends hi).form
  | .list => (exists_marked hi fun hlt => ends hlt).1
  | .quote => (exists_marked hi fun hlt => ends hlt).2.1
  | .string => (exists_marked hi fun hlt => ends hlt).2.2
  | .num => (exists_word hi).1
  | .ident => (exists_word hi).2.1
  | .atom => (exists_word hi).2.2
  | .anyOf gs =>
    have ⟨o, ho⟩ := exists_choose gs (exists_call_of_mem hi gs) none
    ⟨o, .anyOf ho⟩

theorem exists_call_of_mem (hi : i ≤ b.length) : ∀ gs : List Grammar, ∀ g ∈ gs, ∃ o, Call b (.read g) i o
  | [] => List.forall_mem_nil _
  | g :: gs => List.forall_mem_cons.mpr ⟨exists_call hi g, exists_call_of_mem hi gs⟩

end

/-- **Reading form after form ends**: every form moves the cursor. -/
theorem exists_calls (g : Grammar) (hi : i ≤ b.length) : ∃ xs e, Calls b g i xs e := by
  induction i, hi using backwards with
  | step i hi ih =>
    rcases Nat.eq_or_lt_of_le hi with rfl | hlt
    · exact ⟨_, _, .ended⟩
    obtain ⟨o, ho⟩ := exists_call hi g
    cases o with
    | error e => exact ⟨_, _, .error hlt ho⟩
    | ok r =>
      obtain ⟨hir, hend⟩ := ho.within hi (Task.within_of_none rfl)
      obtain ⟨k, hk⟩ := exists_skip hend
      obtain ⟨xs, e, hxs⟩ := ih k hk.le.2 (Nat.lt_of_lt_of_le hir hk.le.1)
      exact ⟨_, _, .more hlt ho hk hxs⟩

theorem exists_reads (b : Bytes) (g : Grammar) : ∃ xs e, Reads b g xs e := by
  obtain ⟨i, hi⟩ := exists_skip (Nat.zero_le b.length)
  obtain ⟨xs, e, h⟩ := exists_calls g hi.le.2
  exact ⟨xs, e, i, hi, h⟩

end Descent

end RegisterMachine
