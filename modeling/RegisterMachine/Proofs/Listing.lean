import RegisterMachine.Machine.Report
import RegisterMachine.Proofs.Rearrangement

/-!
# A listing is a controller

The listing of a program shows its labels and instructions row by row.  The names and texts in these rows, in the
order of the rows and between one pair of parentheses, are a controller of the same program.

* `Row`, `Program.rows`: the rows of a listing.
* `rowLabels_perm`: the rows show each label once, above the instruction that it is bound to.
* `Assembled.rearranged`: the rows are the controller, rearranged.
* `Machine.listing_assembles`: assembled, they make the same program again.
-/

namespace RegisterMachine

open Interpreter Syntax

/-! ## Rows -/

/-- A row of a listing. -/
inductive Row where
  | label (name : Bytes)
  | instruction (index : Nat) (ins : Instruction)

namespace Row

/-- The row as a line of text. -/
def line : Row → Bytes
  | label name => concat [name, ":\n"]
  | instruction index ins => tabLine 1 [decimal index, (ins.code.map Code.tag).getD [], ins.text]

/-- What a row shows of the controller: the name of a label or the text of an instruction. -/
def word : Row → Bytes
  | label name => name
  | instruction _ ins => ins.text

/-- The element of a controller that a row stands for. -/
def form : Row → Form
  | label name => .ident .none name
  | instruction _ ins => ins.source

/-- The instruction of a row, with its index. -/
def instruction? : Row → Option (Instruction × Nat)
  | label _ => none
  | instruction index ins => some (ins, index)

end Row

/-- The rows of the labels of an offset. -/
def Program.labelRows (p : Program) (offset : Nat) : List Row := (p.labelsAt offset).map .label

/-- The rows of an instruction and of the labels that are bound to it. -/
def Program.rowsAt (p : Program) (e : Instruction × Nat) : List Row := p.labelRows e.2 ++ [.instruction e.2 e.1]

/-- The rows of a listing. -/
def Program.rows (p : Program) : List Row := p.instructions.toList.zipIdx.flatMap p.rowsAt ++ p.labelRows p.size

/-- The labels among some rows, each with the number of instructions above it; `count` of them come before all. -/
def rowLabels (count : Nat) : List Row → List (Bytes × Nat)
  | [] => []
  | .label name :: rest => (name, count) :: rowLabels count rest
  | .instruction .. :: rest => rowLabels (count + 1) rest

theorem rowLabels_labels_append (count : Nat) (names : List Bytes) (rest : List Row) :
    rowLabels count (names.map .label ++ rest) = names.map (·, count) ++ rowLabels count rest := by
  induction names with
  | nil => rfl
  | cons name names ih => rw [List.map_cons, List.cons_append, rowLabels, ih, List.map_cons, List.cons_append]

theorem mapM_of_forall_ok {ε α β : Type} {f : α → Except ε β} {g : α → β} {xs : List α}
    (h : ∀ x ∈ xs, f x = .ok (g x)) : xs.mapM f = .ok (xs.map g) := by
  induction xs with
  | nil => rfl
  | cons x xs ih =>
    obtain ⟨hx, hxs⟩ := List.forall_mem_cons.mp h
    rw [List.mapM_cons, hx, ok_bind, ih hxs]
    rfl

/-- **The listing is made of the rows.** -/
theorem listing_eq {p : Program} (h : ∀ ins ∈ p.instructions.toList, ins.code.isSome) :
    listing p = .ok (p.rows.flatMap Row.line) := by
  have hlabels (k : Nat) : labelLines p k = (p.labelRows k).flatMap Row.line := by
    rw [Program.labelRows, List.flatMap_map]
    rfl
  have hlines : ∀ e ∈ p.instructions.toList.zipIdx,
      instructionLines p e.2 e.1 = .ok ((p.rowsAt e).flatMap Row.line) := by
    intro e he
    obtain ⟨c, hc⟩ := Option.isSome_iff_exists.mp (h e.1 (List.fst_mem_of_mem_zipIdx he))
    have hat : p.instructions[e.2]? = some e.1 :=
      Array.getElem?_toList.symm.trans (List.mem_zipIdx_iff_getElem?.mp he)
    rw [instructionLines, hc, hlabels, Program.rowsAt, List.flatMap_append, Program.index_eq hat]
    simp [Row.line, hc]
  unfold listing
  rw [mapM_of_forall_ok hlines, ok_bind, Program.rows, List.flatMap_append, List.flatMap_assoc, hlabels,
    List.flatMap_def]
  rfl

/-- The rows show the instructions in their order. -/
theorem instructions_rows (p : Program) : p.rows.filterMap Row.instruction? = p.instructions.toList.zipIdx := by
  have hlabels (k : Nat) : (p.labelRows k).filterMap Row.instruction? = [] := by
    simp [Program.labelRows, Row.instruction?]
  have hrows (e : Instruction × Nat) : (p.rowsAt e).filterMap Row.instruction? = [e] := by
    rw [Program.rowsAt, List.filterMap_append, hlabels]
    rfl
  rw [Program.rows, List.filterMap_append, hlabels, List.append_nil, List.filterMap_flatMap]
  simp [hrows]

theorem mem_of_mem_rows {p : Program} {index : Nat} {ins : Instruction} (h : .instruction index ins ∈ p.rows) :
    ins ∈ p.instructions.toList := by
  have hmem : (ins, index) ∈ p.rows.filterMap Row.instruction? := List.mem_filterMap.mpr ⟨_, h, rfl⟩
  rw [instructions_rows] at hmem
  exact List.fst_mem_of_mem_zipIdx hmem

/-! ## The labels among the rows -/

theorem rowLabels_rowsFrom (p : Program) (is : List Instruction) (k : Nat) :
    rowLabels k ((is.zipIdx k).flatMap p.rowsAt ++ p.labelRows (k + is.length)) =
      (List.range' k (is.length + 1)).flatMap fun j => (p.labelsAt j).map (·, j) := by
  induction is generalizing k with
  | nil =>
    have h := rowLabels_labels_append k (p.labelsAt k) []
    rw [List.append_nil] at h
    simpa [Program.labelRows, rowLabels] using h
  | cons ins is ih =>
    have hk : k + (ins :: is).length = k + 1 + is.length := by
      rw [List.length_cons]
      omega
    rw [hk, List.zipIdx_cons, List.flatMap_cons, Program.rowsAt, Program.labelRows, List.append_assoc,
      List.append_assoc, rowLabels_labels_append, List.range'_succ, List.flatMap_cons, List.length_cons]
    congr 1
    exact ih (k + 1)

/-- Entries gathered offset by offset are all the entries with a smaller offset. -/
theorem flatMap_filter_perm (l : List (Bytes × Nat)) (n : Nat) :
    ((List.range n).flatMap fun j => l.filter (·.2 == j)).Perm (l.filter (·.2 < n)) := by
  induction n with
  | zero => simp
  | succ n ih =>
    rw [List.range_succ, List.flatMap_append, List.flatMap_singleton]
    have hsplit := List.filter_append_perm (fun e : Bytes × Nat => decide (e.2 < n)) (l.filter (·.2 < n + 1))
    rw [List.filter_filter, List.filter_filter] at hsplit
    have hlow : (l.filter fun e => decide (e.2 < n) && decide (e.2 < n + 1)) = l.filter (·.2 < n) := by
      refine List.filter_congr fun e _ => ?_
      rw [Bool.eq_iff_iff]
      simp
      omega
    have hhigh : (l.filter fun e => (!decide (e.2 < n)) && decide (e.2 < n + 1)) = l.filter (·.2 == n) := by
      refine List.filter_congr fun e _ => ?_
      rw [Bool.eq_iff_iff]
      simp
      omega
    rw [hlow, hhigh] at hsplit
    exact (ih.append_right _).trans hsplit

theorem labelsAt_perm (p : Program) (k : Nat) : ((p.labelsAt k).map (·, k)).Perm (p.labels.filter (·.2 == k)) := by
  have hsort : (p.labelsAt k).Perm ((p.labels.filter (·.2 == k)).map (·.1)) := List.mergeSort_perm _ _
  refine (hsort.map (·, k)).trans ?_
  rw [List.map_map]
  refine List.Perm.of_eq ((List.map_congr_left fun e he => ?_).trans (List.map_id _))
  have hk : e.2 = k := by simpa using (List.mem_filter.mp he).2
  rw [← hk]
  rfl

/-- **The rows show each label of the program once, with as many instructions above it as its offset says.** -/
theorem rowLabels_perm {p : Program} (h : ∀ l ∈ p.labels, l.2 ≤ p.size) : (rowLabels 0 p.rows).Perm p.labels := by
  have hrows := rowLabels_rowsFrom p p.instructions.toList 0
  rw [Nat.zero_add, Array.length_toList, ← List.range_eq_range'] at hrows
  have hall : p.labels.filter (·.2 < p.size + 1) = p.labels := by
    refine List.filter_eq_self.mpr fun l hl => ?_
    have := h l hl
    simp
    omega
  have hperm := flatMap_filter_perm p.labels (p.size + 1)
  rw [hall] at hperm
  rw [Program.rows]
  refine (List.Perm.of_eq hrows).trans ?_
  exact (List.Perm.flatMap_left _ fun k _ => labelsAt_perm p k).trans hperm

/-! ## The rows as a controller -/

theorem elements_rows (rows : List Row) :
    elements (rows.map Row.form) = elements ((rows.filterMap Row.instruction?).map (·.1.source)) := by
  unfold elements
  rw [List.filterMap_map, List.filterMap_map, List.filterMap_filterMap]
  refine List.filterMap_congr fun row _ => ?_
  cases row with
  | label => rfl
  | instruction => rfl

theorem elements_elements (items : List Form) : elements ((elements items).map (·.1)) = elements items := by
  induction items with
  | nil => rfl
  | cons x items ih =>
    cases x with
    | list span parts => exact congrArg ((Form.list span parts, parts) :: ·) ih
    | ident | int | float | string | missing => exact ih

theorem labelsFrom_rows {rows : List Row} (h : ∀ e ∈ rows.filterMap Row.instruction?, isInstruction e.1.source)
    (count : Nat) : labelsFrom count (rows.map Row.form) = rowLabels count rows := by
  induction rows generalizing count with
  | nil => rfl
  | cons row rows ih =>
    cases row with
    | label name => exact congrArg ((name, count) :: ·) (ih h count)
    | instruction index ins =>
      obtain ⟨hins, hrest⟩ := List.forall_mem_cons.mp h
      cases hsource : ins.source with
      | list span parts =>
        rw [List.map_cons, Row.form, hsource]
        exact ih hrest (count + 1)
      | ident | int | float | string | missing =>
        rw [hsource] at hins
        cases hins

theorem exists_mem_rowLabels {rows : List Row} {name : Bytes} (h : .label name ∈ rows) (count : Nat) :
    ∃ k, (name, k) ∈ rowLabels count rows := by
  induction rows generalizing count with
  | nil => cases h
  | cons row rows ih =>
    cases row with
    | label other =>
      rcases List.mem_cons.mp h with hname | hrest
      · cases hname
        exact ⟨count, List.mem_cons_self⟩
      · obtain ⟨k, hk⟩ := ih hrest count
        exact ⟨k, List.mem_cons_of_mem _ hk⟩
    | instruction =>
      rcases List.mem_cons.mp h with hname | hrest
      · cases hname
      · exact ih hrest (count + 1)

section Assembled

variable {serial : Nat} {items : List Form} {p : Program}

namespace Interpreter.Assembled

/-- An instruction of the program comes from a list in the controller, whose text it has. -/
theorem source (hp : Assembled serial items p) {ins : Instruction} (h : ins ∈ p.instructions.toList) :
    ins.source ∈ items ∧ isInstruction ins.source ∧ ins.text = ins.source.text ∧ ins.code.isSome := by
  obtain ⟨k, hk⟩ := List.mem_iff_getElem?.mp h
  rw [Array.getElem?_toList] at hk
  obtain ⟨parts, c, hx, hc, -⟩ := hp.instruction hk
  obtain ⟨span, hlist⟩ := exists_list_of_mem_elements (List.mem_of_getElem? hx)
  have hlist : ins.source = .list span parts := hlist
  rw [hlist] at hx
  refine ⟨?_, ?_, hp.text_eq hk, ?_⟩
  · rw [hlist]
    exact mem_elements_iff.mp (List.mem_of_getElem? hx)
  · rw [hlist]
    rfl
  · rw [hc]
    rfl

theorem sources (hp : Assembled serial items p) :
    p.instructions.toList.map Instruction.source = (elements items).map (·.1) := by
  refine List.ext_getElem? fun k => ?_
  rw [List.getElem?_map, List.getElem?_map, Array.getElem?_toList]
  cases hk : p.instructions[k]? with
  | some ins =>
    obtain ⟨parts, c, hx, -⟩ := hp.instruction hk
    rw [hx]
    rfl
  | none =>
    have hlength : (elements items).length ≤ k := by
      rw [length_elements, ← hp.size_eq]
      exact Array.getElem?_eq_none_iff.mp hk
    rw [List.getElem?_eq_none hlength]
    rfl

/-- **The rows of the listing are a rearranged controller.** -/
theorem rearranged (hp : Assembled serial items p) : Rearranged items (p.rows.map Row.form) where
  all := by
    rw [List.forall_mem_map]
    intro row hrow
    cases row with
    | label => exact .inl rfl
    | instruction index ins => exact .inr (hp.source (mem_of_mem_rows hrow)).2.1
  labels := by
    have hsource : ∀ e ∈ p.rows.filterMap Row.instruction?, isInstruction e.1.source := by
      rw [instructions_rows]
      intro e he
      exact (hp.source (List.fst_mem_of_mem_zipIdx he)).2.1
    rw [labelsFrom_rows hsource, ← hp.labels_eq]
    exact rowLabels_perm hp.destinations_le.1
  instructions := by
    have hzip : p.instructions.toList.zipIdx.map (·.1.source) = p.instructions.toList.map Instruction.source := by
      rw [← List.zipIdx_map_fst 0 p.instructions.toList, List.map_map]
      simp
    rw [elements_rows, instructions_rows, hzip, hp.sources, elements_elements]

theorem texts_rows (hp : Assembled serial items p) : Form.texts (p.rows.map Row.form) = p.rows.map Row.word := by
  rw [Form.texts_eq_map, List.map_map]
  refine List.map_congr_left fun row hrow => ?_
  cases row with
  | label => rfl
  | instruction index ins => exact (hp.source (mem_of_mem_rows hrow)).2.2.1.symm

theorem readable_rows (hp : Assembled serial items p) (hr : ∀ x ∈ items, x.Readable) :
    ∀ x ∈ p.rows.map Row.form, x.Readable := by
  rw [List.forall_mem_map]
  intro row hrow
  cases row with
  | label name =>
    obtain ⟨k, hk⟩ := exists_mem_rowLabels hrow 0
    rw [(rowLabels_perm hp.destinations_le.1).mem_iff, hp.labels_eq] at hk
    have hname : name ∈ labelNames items := by
      rw [← map_labelsFrom 0]
      exact List.mem_map.mpr ⟨_, hk, rfl⟩
    obtain ⟨x, hx, hxname⟩ := List.mem_filterMap.mp hname
    cases x with
    | ident span n =>
      cases hxname
      cases hr _ hx with
      | ident hn => exact .ident hn
    | int | float | string | list | missing => cases hxname
  | instruction index ins => exact hr _ (hp.source (mem_of_mem_rows hrow)).1

end Interpreter.Assembled

end Assembled

/-! ## Reading and assembling the rows -/

/-- Readable forms with blanks between them and parentheses around are read as the list of these forms. -/
theorem readOne_spaced {xs : List Form} (hr : ∀ x ∈ xs, x.Readable) {text : Bytes}
    (ht : Spaced (Form.texts xs) text)
    (name : Bytes) :
    ∃ span ys, Source.readOne [⟨name, 0x28 :: (text ++ [0x29])⟩] .form = (some (.list span ys), none) ∧
      Form.bares ys = Form.bares xs := by
  have hdata := Form.data_spaced (fun x hx => Form.datum_text (hr x hx)) ht []
  have hdenotes : Syntax.Denotes
      (Source.text [⟨name, 0x28 :: (text ++ [0x29])⟩]) [.list .none (Form.bares xs)] := by
    rw [Source.text, List.map_singleton, List.flatten_singleton]
    exact .cons .nil (.list hdata) (.nil .nil)
  obtain ⟨y, hread, hbare⟩ := (Source.readOne_iff_denotes _ _).mpr hdenotes
  cases y with
  | list span ys => exact ⟨span, ys, hread, (Form.list.inj hbare).2⟩
  | ident | int | float | string | missing => cases hbare

/-- The listing of the program consists of these rows: they show each label once, with the instruction that it is
bound to next below it or with none if it is bound behind the last one, and each instruction once, in order. -/
structure Program.Lists (p : Program) (rows : List Row) : Prop where
  text : listing p = .ok (rows.flatMap Row.line)
  labels : (rowLabels 0 rows).Perm p.labels
  distinct : (p.labels.map (·.1)).Nodup
  instructions : rows.filterMap Row.instruction? = p.instructions.toList.zipIdx

theorem Interpreter.Assembled.lists {serial : Nat} {items : List Form} {p : Program}
    (hp : Assembled serial items p)
    (hn : (labelNames items).Nodup) : p.Lists p.rows where
  text := listing_eq fun ins hins => (hp.source hins).2.2.2
  labels := rowLabels_perm hp.destinations_le.1
  distinct := by
    rw [hp.labels_eq, map_labelsFrom]
    exact hn
  instructions := instructions_rows p

namespace Machine

theorem fresh_of_create {serial : Nat} {registers : List Bytes} {host : Table} {console : Console}
    {controller : Form}
    {m : Machine} (h : create serial registers host console controller = .ok m) : Fresh registers := by
  rcases create_spec serial registers host console controller with ⟨-, -, hr, -⟩ | ⟨e, he, -⟩
  · exact hr
  · rw [h] at he
    cases he

theorem compile_of_readOne {serial : Nat} {file : SourceFile} {registers : List Bytes} {host : Table}
    {console : Console} {controller : Form} {items : List Form}
    (hread : Source.readOne [file] .form = (some controller, none))
    (hc : controller.items? = some items) (hr : Fresh registers) (hw : WellFormed items) :
    ∃ m, compile serial file (some registers) host console = .ok m ∧
      create serial registers host console controller = .ok m := by
  rcases create_spec serial registers host console controller with ⟨m, hm, -⟩ | ⟨e, -, hblamed⟩
  · refine ⟨m, ?_, hm⟩
    unfold compile
    rw [hread]
    simp [hm]
  · exact absurd ⟨hr, items, hc, hw⟩ (not_wellFormed_of_blamed registers controller hblamed)

/-- **A listing is a controller of the program.**  Let a machine be read from a text.  The listing of its program
shows every label once, right above the instruction that it is bound to or at the end, and every instruction once,
in order.  Write the names of the labels and the texts of the instructions in that order, with any blanks between
them, into one pair of parentheses: with the registers of the machine this text makes a machine again, whose
program has the same instructions, by text and code, and the same labels. -/
theorem listing_assembles {serial : Nat} {file : SourceFile} {registers : Option (List Bytes)} {host : Table}
    {console : Console} {m : Machine} (h : compile serial file registers host console = .ok m) :
    m.program.Lists m.program.rows ∧
    ∀ text, Spaced (m.program.rows.map Row.word) text →
      ∀ (name : Bytes) (serial' : Nat) (host' : Table) (console' : Console),
      ∃ m', compile serial' ⟨name, 0x28 :: (text ++ [0x29])⟩ (some m.state.names) host' console' = .ok m' ∧
        m'.state.names = m.state.names ∧ SameProgram m.program m'.program := by
  obtain ⟨controller, hread, hcreate⟩ := compile_ok h
  obtain ⟨items, hitems, hp⟩ := assembled_of_assemble (create_ok hcreate).1
  have hw : WellFormed items := wellFormed_of_assemble hitems (create_ok hcreate).1
  refine ⟨hp.lists hw.labels, ?_⟩
  intro text ht name serial' host' console'
  have hfresh : Fresh m.state.names := by
    rw [names_of_create hcreate]
    exact fresh_of_create hcreate
  have hreadable : ∀ x ∈ items, x.Readable := by
    have hr : controller.Readable := Source.readable_of_readOne (congrArg Prod.fst hread)
    cases controller with
    | list span items' =>
      obtain rfl : items' = items := Option.some.inj hitems
      exact Form.readable_list_iff.mp hr
    | ident | int | float | string | missing => cases hitems
  rw [← hp.texts_rows] at ht
  obtain ⟨span, ys, hread', hbares⟩ := readOne_spaced (hp.readable_rows hreadable) ht name
  have hrearranged : Rearranged items ys := hp.rearranged.respan hbares
  obtain ⟨m', hcompile, hcreate'⟩ := compile_of_readOne hread' rfl hfresh (hrearranged.wellFormed hw)
  obtain ⟨items', hitems', hq⟩ := assembled_of_assemble (create_ok hcreate').1
  obtain rfl : ys = items' := Option.some.inj hitems'
  exact ⟨m', hcompile, names_of_create hcreate', hrearranged.sameProgram hw.labels hp hq⟩

/-- Two labels that are shown in the order of their names, one behind the last instruction, and a text with a
quote, a string and, between the labels, a comment. -/
theorem listing_assembles_sorted_labels : ∃ m m',
    compile 0 ⟨[], utf8 "(b a (assign x (const '(p \"q\"))) (goto (label z)) z)"⟩ none {} {} = .ok m ∧
    m.program.rows.map Row.word =
      [utf8 "a", utf8 "b", utf8 "(assign x (const '(p \"q\")))", utf8 "(goto (label z))", utf8 "z"] ∧
    m.program.Lists m.program.rows ∧
    compile 1 ⟨[], utf8 "(a ; or b\nb (assign x (const '(p \"q\"))) (goto (label z)) z)"⟩ (some [utf8 "x"]) {} {} =
      .ok m' ∧
    SameProgram m.program m'.program := by
  obtain ⟨m, hm, hwords⟩ : ∃ m,
      compile 0 ⟨[], utf8 "(b a (assign x (const '(p \"q\"))) (goto (label z)) z)"⟩ none {} {} = .ok m ∧
      m.state.names = [utf8 "x"] ∧ m.program.rows.map Row.word =
        [utf8 "a", utf8 "b", utf8 "(assign x (const '(p \"q\")))", utf8 "(goto (label z))", utf8 "z"] :=
    ⟨_, rfl, rfl, by cbv⟩
  have hcomment : Blank (utf8 " ; or b\n") := by
    refine ⟨by decide, fun r => .space rfl ?_⟩
    have hline : ∀ c ∈ utf8 " or b", (c != byte '\n') = true := List.all_eq_true.mp rfl
    exact .comment (u := utf8 " or b") (s := byte '\n' :: r) (fun c hc => bne_iff_ne.mp (hline c hc))
      (by simp [EndsLine]) (.space rfl .nil)
  have hspaced :=
    Spaced.cons (w := utf8 "a") hcomment (spaced_join [utf8 "b", utf8 "(assign x (const '(p \"q\")))",
    utf8 "(goto (label z))", utf8 "z"])
  obtain ⟨hlists, hagain⟩ := listing_assembles hm
  rw [hwords.2] at hagain
  obtain ⟨m', hm', -, hsame⟩ := hagain _ hspaced [] 1 {} {}
  rw [hwords.1] at hm'
  exact ⟨m, m', hm, hwords.2, hlists, hm', hsame⟩

end Machine

end RegisterMachine
