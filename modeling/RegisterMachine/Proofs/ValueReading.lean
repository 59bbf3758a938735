import RegisterMachine.Proofs.LineReading

/-!
# Printed values read back

A value that is printed and read again is the same value, except that a list `(quote v)` denotes what `v` denotes.

* `Value.Readable`: truth values, integers, finite floats, strings, symbols that are read as such, and lists of
  these.
* `Value.form`: the form that the printed value is read as; `Value.datum_text`: printing gives a text of this form.
* `Value.unquoted`: the value with its quotations replaced; `Value.datum_form`: this is what the form denotes.
* `Value.parts`: a value and all values inside it.
* `Value.printed_reads_back`: the whole way.
-/

namespace RegisterMachine

open Syntax

theorem Form.data_eq_map (xs : List Form) : Form.data xs = xs.map Form.datum := by
  induction xs with
  | nil => rfl
  | cons x xs ih => rw [Form.data, ih, List.map_cons]

namespace Value

/-! ## Readable values -/

/-- The words that denote truth values, in small letters. -/
def truthWords : List Bytes := [utf8 "#t", utf8 "true", utf8 "#f", utf8 "false"]

/-- A value that can be written down. -/
inductive Readable : Value → Prop
  | bool {b : Bool} : Readable (.bool b)
  | int {n : Int64} : Readable (.int n)
  | float {x : Float} : x.isFinite = true → Readable (.float x)
  | string {s : Bytes} : Readable (.string s)
  | symbol {w : Bytes} : IsName w → lower w ∉ truthWords → Readable (.symbol w)
  | list {items : List Value} : (∀ v ∈ items, Readable v) → Readable (.list items)

/-- Two elements, the first of which is the word of a quote mark. -/
def isQuotation : List Value → Bool
  | [symbol w, _] => w == Form.quoteWord
  | _ => false

/-- A list with these items, or the value of the second one if it is a quotation. -/
def unquote (items : List Value) : List Value → Value
  | [a, v] => if isQuotation items then v else list [a, v]
  | vs => list vs

mutual

/-- The value with every quotation inside it replaced by what is quoted. -/
def unquoted : Value → Value
  | list items => unquote items (unquotedAll items)
  | v => v
termination_by structural v => v

/-- The values with their quotations replaced. -/
def unquotedAll : List Value → List Value
  | [] => []
  | v :: rest => v.unquoted :: unquotedAll rest
termination_by structural vs => vs

end

mutual

/-- The value and all values inside it. -/
def parts : Value → List Value
  | list items => list items :: partsIn items
  | v => [v]
termination_by structural v => v

/-- The values and all values inside them. -/
def partsIn : List Value → List Value
  | [] => []
  | v :: rest => v.parts ++ partsIn rest
termination_by structural vs => vs

end

mutual

/-- The form that the printed value is read as. -/
def form : Value → Form
  | bool b => .ident .none (if b then utf8 "true" else utf8 "false")
  | int n => .int .none n
  | float x => .float .none x
  | string s => .string .none s
  | symbol w => .ident .none w
  | list items => .list .none (forms items)
  | _ => .missing
termination_by structural v => v

/-- The forms that the printed items of a list are read as. -/
def forms : List Value → List Form
  | [] => []
  | v :: rest => v.form :: forms rest
termination_by structural vs => vs

end

theorem unquotedAll_eq_map (vs : List Value) : unquotedAll vs = vs.map unquoted := by
  induction vs with
  | nil => rfl
  | cons v vs ih => rw [unquotedAll, ih, List.map_cons]

theorem forms_eq_map (vs : List Value) : forms vs = vs.map form := by
  induction vs with
  | nil => rfl
  | cons v vs ih => rw [forms, ih, List.map_cons]

theorem texts_eq_map (vs : List Value) : texts vs = vs.map text := by
  induction vs with
  | nil => rfl
  | cons v vs ih => rw [texts, ih, List.map_cons]

theorem mem_partsIn {v : Value} {vs : List Value} : v ∈ partsIn vs ↔ ∃ w ∈ vs, v ∈ w.parts := by
  induction vs with
  | nil => simp [partsIn]
  | cons w vs ih => simp [partsIn, ih]

/-! ## Printing -/

theorem text_list (items : List Value) : (list items).text = 0x28 :: (join [0x20] (items.map text) ++ [0x29]) := by
  rw [text, texts_eq_map]
  simp only [concat, List.flatten_cons, List.flatten_nil, List.append_nil]
  rfl

theorem isName_truth (b : Bool) : IsName (if b then utf8 "true" else utf8 "false") := by
  cases b with
  | true => exact isName_utf8 "true" (by decide) rfl rfl
  | false => exact isName_utf8 "false" (by decide) rfl rfl

/-- **A printed value is a text of its form**, whatever ends a word may follow. -/
theorem datum_text {v : Value} (h : v.Readable) : ∀ r, EndsWord r → Datum (v.text ++ r) v.form r := by
  induction h with
  | @bool b => exact Form.datum_text (x := .ident .none _) (.ident (isName_truth b))
  | @int n => exact Form.datum_text (x := .int .none n) .int
  | @float y hy => exact Form.datum_text (x := .float .none y) (.float hy)
  | @string s => exact Form.datum_text (x := .string .none s) .string
  | @symbol w hw _ => exact Form.datum_text (x := .ident .none w) (.ident hw)
  | @list items _ ih =>
    intro r _
    rw [text_list, form, forms_eq_map, List.cons_append, List.append_assoc]
    exact .list (data_words ih (spaced_join _) r)

/-! ## What the form denotes -/

theorem nameDatum_symbol {w : Bytes} (h : lower w ∉ truthWords) : nameDatum w = symbol w := by
  simp only [truthWords, List.mem_cons, List.not_mem_nil, or_false, not_or] at h
  obtain ⟨ht, htrue, hf, hfalse⟩ := h
  have hnone : truthName? w = none := by
    unfold truthName?
    simp [ht, htrue, hf, hfalse]
  rw [nameDatum, hnone]

/-- Only the symbol of a quote mark is read as its word. -/
theorem tagged?_forms (items : List Value) :
    (Form.tagged? Form.quoteWord (items.map form)).isSome = isQuotation items := by
  match items with
  | [] => rfl
  | [_] | _ :: _ :: _ :: _ => simp [Form.tagged?, isQuotation]
  | [a, v] =>
    cases a with
    | symbol w =>
      show (if w == Form.quoteWord then some v.form else none).isSome = (w == Form.quoteWord)
      cases w == Form.quoteWord <;> rfl
    | bool b => cases b <;> rfl
    | _ => rfl

theorem listDatum_forms (items vs : List Value) : listDatum (items.map form) vs = unquote items vs := by
  have htagged := tagged?_forms items
  unfold listDatum
  cases htag : Form.tagged? Form.quoteWord (items.map form) with
  | none =>
    rw [htag] at htagged
    match vs with
    | [] | [_] | _ :: _ :: _ :: _ => rfl
    | [a, v] => simp [unquote, ← htagged]
  | some x =>
    rw [htag] at htagged
    match vs with
    | [] | [_] | _ :: _ :: _ :: _ => rfl
    | [a, v] => simp [unquote, ← htagged]

/-- **The form of a printed value denotes it**, without its quotations. -/
theorem datum_form {v : Value} (h : v.Readable) : v.form.datum = v.unquoted := by
  induction h with
  | @bool b => cases b <;> rfl
  | int => rfl
  | float _ => rfl
  | string => rfl
  | symbol _ hw => exact nameDatum_symbol hw
  | @list items _ ih =>
    have hdata : Form.data (forms items) = unquotedAll items := by
      rw [Form.data_eq_map, forms_eq_map, List.map_map, unquotedAll_eq_map]
      exact List.map_congr_left ih
    rw [form, Form.datum, hdata, forms_eq_map, listDatum_forms, unquoted]

/-- A value without quotations stays. -/
theorem unquoted_eq_self {v : Value} (h : v.Readable)
    (hq : ∀ items, list items ∈ v.parts → isQuotation items = false) :
    v.unquoted = v := by
  induction h with
  | bool | int | float | string | symbol => rfl
  | @list items _ ih =>
    have hitems : unquotedAll items = items := by
      rw [unquotedAll_eq_map]
      refine (List.map_congr_left fun v hv => ?_).trans (List.map_id items)
      refine ih v hv fun l hl => hq l ?_
      rw [parts]
      exact List.mem_cons_of_mem _ (mem_partsIn.mpr ⟨v, hv, hl⟩)
    have hno : isQuotation items = false := hq items (by rw [parts]; exact List.mem_cons_self)
    rw [unquoted, hitems]
    match items with
    | [] | [_] | _ :: _ :: _ :: _ => rfl
    | [a, v] => simp [unquote, hno]

/-- **Printed values read back.**  A readable value is printed as a text that is read as one form.  The form
denotes the value with every quotation `(quote v)` in it replaced by what `v` reads back as; so it denotes the
value itself where there is no quotation. -/
theorem printed_reads_back {v : Value} (h : v.Readable) :
    ∃ x, Source.readOne (.ofText v.text) .form = (some x, none) ∧ x.datum = v.unquoted ∧
      ((∀ items, list items ∈ v.parts → isQuotation items = false) → x.datum = v) := by
  have hdenotes : Denotes (Source.ofText v.text).text [v.form] := by
    have hdatum := datum_text h [] (by simp [EndsWord])
    rw [List.append_nil] at hdatum
    rw [Source.text_ofText]
    exact .cons .nil hdatum (.nil .nil)
  obtain ⟨x, hx, hbare⟩ := (Source.readOne_iff_denotes _ _).mpr hdenotes
  have hvalue : x.datum = v.unquoted := by rw [← Form.datum_bare, hbare, datum_form h]
  exact ⟨x, hx, hvalue, fun hq => hvalue.trans (unquoted_eq_self h hq)⟩

/-- `(quote (quote (true "\xFF\"" -1.5 ())))` reads back as the list inside, and this list as itself. -/
theorem printed_reads_back_quotations :
    let x := Double.ofMagnitude true 0x3FF8000000000000
    let v := Value.list [.bool true, .string [0xFF, 0x22], .float x, .list []]
    let q := Value.list [.symbol Form.quoteWord, .list [.symbol Form.quoteWord, v]]
    q.Readable ∧ (∃ y, Source.readOne (.ofText q.text) .form = (some y, none) ∧ y.datum = v) ∧
      v.Readable ∧ ∃ y, Source.readOne (.ofText v.text) .form = (some y, none) ∧ y.datum = v := by
  intro x v q
  have hx : x.isFinite = true := Double.isFinite_ofMagnitude true (by decide)
  have hv : v.Readable := by
    refine .list ?_
    simp [Readable.bool, Readable.string, Readable.float hx, Readable.list]
  have hquote : (symbol Form.quoteWord).Readable := .symbol isName_quoteWord (by decide)
  have hq : q.Readable := by
    refine .list ?_
    simp [hquote, hv, Readable.list]
  obtain ⟨y, hy, hyv, -⟩ := printed_reads_back hq
  obtain ⟨z, hz, -, hzv⟩ := printed_reads_back hv
  refine ⟨hq, ⟨y, hy, hyv⟩, hv, z, hz, hzv fun items hmem => ?_⟩
  have hparts : items = [.bool true, .string [0xFF, 0x22], .float x, .list []] ∨ items = [] := by
    simpa [v, parts, partsIn] using hmem
  rcases hparts with rfl | rfl <;> rfl

end Value

end RegisterMachine
