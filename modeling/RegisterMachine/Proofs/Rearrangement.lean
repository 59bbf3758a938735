import RegisterMachine.Proofs.LineReading
import RegisterMachine.Proofs.WellFormed

/-!
# Rearranged controllers

Neither the spans of a controller nor the order of labels that are bound to the same instruction make a difference
to the program.

* `lookup_eq_of_perm`: with distinct names the order of a table plays no part.
* `InstructionShape.transfer`: what an instruction compiles to depends neither on spans nor on the order of the
  labels.
* `Rearranged`: a controller with the same instructions in their order and the same labels before them.
* `SameProgram`, `Rearranged.sameProgram`: it makes the same program.
-/

namespace RegisterMachine

open Interpreter

/-! ## Names that are looked up -/

theorem lookup_eq_some_iff_mem {l : List (Bytes × Nat)} (hn : (l.map (·.1)).Nodup) {name : Bytes} {offset : Nat} :
    l.lookup name = some offset ↔ (name, offset) ∈ l := by
  induction l with
  | nil => simp
  | cons e l ih =>
    obtain ⟨hnot, hn⟩ := List.nodup_cons.mp hn
    rw [List.lookup_cons, List.mem_cons]
    by_cases hname : name = e.1
    · subst hname
      have hnotmem : (e.1, offset) ∉ l := fun h => hnot (List.mem_map.mpr ⟨_, h, rfl⟩)
      rw [beq_self_eq_true, or_iff_left hnotmem]
      simp [Prod.ext_iff, eq_comm]
    · have hne : (name == e.1) = false := by simpa using hname
      rw [hne, ih hn, or_iff_right fun h => hname (congrArg Prod.fst h)]

/-- With distinct names the order of a table plays no part. -/
theorem lookup_eq_of_perm {l l' : List (Bytes × Nat)} (h : l.Perm l') (hn : (l.map (·.1)).Nodup) (name : Bytes) :
    l.lookup name = l'.lookup name := by
  have hn' : (l'.map (·.1)).Nodup := (h.map (·.1)).nodup_iff.mp hn
  refine Option.ext fun offset => ?_
  rw [lookup_eq_some_iff_mem hn, lookup_eq_some_iff_mem hn', h.mem_iff]

theorem map_labelsFrom (count : Nat) (items : List Form) :
    (labelsFrom count items).map (·.1) = labelNames items := by
  induction items generalizing count with
  | nil => rfl
  | cons x items ih =>
    cases x with
    | ident span name =>
      rw [labelsFrom, List.map_cons, ih]
      rfl
    | list => exact ih (count + 1)
    | int | float | string | missing => exact ih count

/-! ## Spans and the order of labels play no part -/

namespace Form

theorem bares_eq_cons {xs ys : List Form} {y : Form} (h : bares xs = bares (y :: ys)) :
    ∃ x xs', xs = x :: xs' ∧ x.bare = y.bare ∧ bares xs' = bares ys := by
  cases xs with
  | nil => cases h
  | cons x xs' =>
    obtain ⟨hx, hxs⟩ := List.cons.inj h
    exact ⟨x, xs', rfl, hx, hxs⟩

theorem bares_eq_nil {xs : List Form} (h : bares xs = bares []) : xs = [] := by
  cases xs with
  | nil => rfl
  | cons x xs => cases h

theorem bare_eq_ident {x : Form} {a : Span} {name : Bytes} (h : x.bare = (ident a name).bare) :
    ∃ b, x = ident b name := by
  cases x with
  | ident b n =>
    cases h
    exact ⟨b, rfl⟩
  | int | float | string | list | missing => cases h

theorem bare_eq_list {x : Form} {a : Span} {items : List Form} (h : x.bare = (list a items).bare) :
    ∃ b items', x = list b items' ∧ bares items' = bares items := by
  cases x with
  | list b items' => exact ⟨b, items', rfl, (Form.list.inj h).2⟩
  | ident | int | float | string | missing => cases h

theorem bares_eq_ident_cons {xs ys : List Form} {a : Span} {name : Bytes}
    (h : bares xs = bares (ident a name :: ys)) :
    ∃ b xs', xs = ident b name :: xs' ∧ bares xs' = bares ys := by
  obtain ⟨x, xs', hxs, hx, h'⟩ := bares_eq_cons h
  obtain ⟨b, rfl⟩ := bare_eq_ident hx
  exact ⟨b, xs', hxs, h'⟩

theorem bares_eq_singleton {xs : List Form} {y : Form} (h : bares xs = bares [y]) :
    ∃ x, xs = [x] ∧ x.bare = y.bare := by
  obtain ⟨x, xs', hxs, hx, h'⟩ := bares_eq_cons h
  rw [bares_eq_nil h'] at hxs
  exact ⟨x, hxs, hx⟩

theorem bare_eq_tagged {x y : Form} {a b : Span} {tag : Bytes} (h : x.bare = (list a [ident b tag, y]).bare) :
    ∃ a' b' y', x = list a' [ident b' tag, y'] ∧ y'.bare = y.bare := by
  obtain ⟨a', items, hx, hitems⟩ := bare_eq_list h
  obtain ⟨b', rest, rfl, hrest⟩ := bares_eq_ident_cons hitems
  obtain ⟨y', rfl, hy⟩ := bares_eq_singleton hrest
  exact ⟨a', b', y', hx, hy⟩

theorem bare_eq_taggedName {x : Form} {a b c : Span} {tag name : Bytes}
    (h : x.bare = (list a [ident b tag, ident c name]).bare) :
    ∃ a' b' c', x = list a' [ident b' tag, ident c' name] := by
  obtain ⟨a', b', y, rfl, hy⟩ := bare_eq_tagged h
  obtain ⟨c', rfl⟩ := bare_eq_ident hy
  exact ⟨a', b', c', rfl⟩

theorem datum_of_bare_eq {x y : Form} (h : x.bare = y.bare) : x.datum = y.datum := by
  rw [← datum_bare x, h, datum_bare]

theorem text_of_bare_eq {x y : Form} (h : x.bare = y.bare) : x.text = y.text := by
  rw [← text_bare x, h, text_bare]

end Form

namespace Interpreter

variable {labels labels' : List (Bytes × Nat)} (hl : ∀ name, labels'.lookup name = labels.lookup name)
include hl

theorem OperandShape.transfer {x y : Form} {o : Operand} (h : OperandShape labels x o) (hy : y.bare = x.bare) :
    OperandShape labels' y o := by
  cases h with
  | const =>
    obtain ⟨a, b, v, rfl, hv⟩ := Form.bare_eq_tagged hy
    rw [← Form.datum_of_bare_eq hv]
    exact .const
  | label h =>
    obtain ⟨a, b, c, rfl⟩ := Form.bare_eq_taggedName hy
    exact .label ((hl _).trans h)
  | reg =>
    obtain ⟨a, b, c, rfl⟩ := Form.bare_eq_taggedName hy
    exact .reg

theorem operandShapes_transfer {xs ys : List Form} {os : List Operand}
    (h : List.Forall₂ (OperandShape labels) xs os)
    (hy : Form.bares ys = Form.bares xs) : List.Forall₂ (OperandShape labels') ys os := by
  induction h generalizing ys with
  | nil =>
    obtain rfl := Form.bares_eq_nil hy
    exact .nil
  | cons hx _ ih =>
    obtain ⟨y, ys, rfl, hy, hys⟩ := Form.bares_eq_cons hy
    exact .cons (hx.transfer hl hy) (ih hys)

theorem CallShape.transfer {xs ys : List Form} {c : Call} (h : CallShape labels xs c)
    (hy : Form.bares ys = Form.bares xs) : CallShape labels' ys c := by
  obtain ⟨h⟩ := h
  obtain ⟨y, ys, rfl, hy, hys⟩ := Form.bares_eq_cons hy
  obtain ⟨a, b, c, rfl⟩ := Form.bare_eq_taggedName hy
  exact .mk (operandShapes_transfer hl h hys)

/-- **What an instruction compiles to** depends neither on where its parts stand nor on the order of the labels. -/
theorem InstructionShape.transfer {xs ys : List Form} {c : Code} (h : InstructionShape labels xs c)
    (hy : Form.bares ys = Form.bares xs) : InstructionShape labels' ys c := by
  cases h with
  | assign h =>
    obtain ⟨a, ys₁, rfl, h₁⟩ := Form.bares_eq_ident_cons hy
    obtain ⟨b, ys₂, rfl, h₂⟩ := Form.bares_eq_ident_cons h₁
    obtain ⟨x, rfl, hx⟩ := Form.bares_eq_singleton h₂
    exact .assign (h.transfer hl hx)
  | compute h =>
    obtain ⟨a, ys₁, rfl, h₁⟩ := Form.bares_eq_ident_cons hy
    obtain ⟨b, ys₂, rfl, h₂⟩ := Form.bares_eq_ident_cons h₁
    exact .compute (h.transfer hl h₂)
  | test h =>
    obtain ⟨a, ys₁, rfl, h₁⟩ := Form.bares_eq_ident_cons hy
    exact .test (h.transfer hl h₁)
  | perform h =>
    obtain ⟨a, ys₁, rfl, h₁⟩ := Form.bares_eq_ident_cons hy
    exact .perform (h.transfer hl h₁)
  | branch h =>
    obtain ⟨a, ys₁, rfl, h₁⟩ := Form.bares_eq_ident_cons hy
    obtain ⟨x, rfl, hx⟩ := Form.bares_eq_singleton h₁
    obtain ⟨b, c, d, rfl⟩ := Form.bare_eq_taggedName hx
    exact .branch ((hl _).trans h)
  | goto h =>
    obtain ⟨a, ys₁, rfl, h₁⟩ := Form.bares_eq_ident_cons hy
    obtain ⟨x, rfl, hx⟩ := Form.bares_eq_singleton h₁
    obtain ⟨b, c, d, rfl⟩ := Form.bare_eq_taggedName hx
    exact .goto ((hl _).trans h)
  | gotoReg =>
    obtain ⟨a, ys₁, rfl, h₁⟩ := Form.bares_eq_ident_cons hy
    obtain ⟨x, rfl, hx⟩ := Form.bares_eq_singleton h₁
    obtain ⟨b, c, d, rfl⟩ := Form.bare_eq_taggedName hx
    exact .gotoReg
  | save =>
    obtain ⟨a, ys₁, rfl, h₁⟩ := Form.bares_eq_ident_cons hy
    obtain ⟨x, rfl, hx⟩ := Form.bares_eq_singleton h₁
    obtain ⟨b, rfl⟩ := Form.bare_eq_ident hx
    exact .save
  | restore =>
    obtain ⟨a, ys₁, rfl, h₁⟩ := Form.bares_eq_ident_cons hy
    obtain ⟨x, rfl, hx⟩ := Form.bares_eq_singleton h₁
    obtain ⟨b, rfl⟩ := Form.bare_eq_ident hx
    exact .restore

omit hl

/-! ## Controllers with the same instructions and labels -/

theorem labelsFrom_bares (count : Nat) (items : List Form) :
    labelsFrom count (Form.bares items) = labelsFrom count items := by
  induction items generalizing count with
  | nil => rfl
  | cons x items ih =>
    cases x with
    | ident span name => exact congrArg ((name, count) :: ·) (ih count)
    | list => exact ih (count + 1)
    | int | float | string | missing => exact ih count

theorem elements_bares (items : List Form) :
    (elements (Form.bares items)).map (·.1) = (elements items).map (·.1.bare) := by
  induction items with
  | nil => rfl
  | cons x items ih =>
    cases x with
    | list span parts => exact congrArg ((Form.list span parts).bare :: ·) ih
    | ident | int | float | string | missing => exact ih

theorem isElement_bare (x : Form) : isLabel x.bare = isLabel x ∧ isInstruction x.bare = isInstruction x := by
  cases x <;> exact ⟨rfl, rfl⟩

/-- The second controller has the instructions of the first one in their order, up to spans, and the same labels
before the same instructions. -/
structure Rearranged (items items' : List Form) : Prop where
  all : ∀ x ∈ items', isLabel x ∨ isInstruction x
  labels : (labelsFrom 0 items').Perm (labelsFrom 0 items)
  instructions : (elements items').map (·.1.bare) = (elements items).map (·.1.bare)

/-- Spans may be changed further. -/
theorem Rearranged.respan {items xs ys : List Form} (h : Rearranged items xs)
    (hy : Form.bares ys = Form.bares xs) :
    Rearranged items ys where
  all := by
    have hbares : ∀ x ∈ Form.bares ys, isLabel x ∨ isInstruction x := by
      rw [hy, Form.bares_eq_map, List.forall_mem_map]
      intro x hx
      rw [(isElement_bare x).1, (isElement_bare x).2]
      exact h.all x hx
    rw [Form.bares_eq_map, List.forall_mem_map] at hbares
    intro x hx
    have := hbares x hx
    rwa [(isElement_bare x).1, (isElement_bare x).2] at this
  labels := by
    rw [← labelsFrom_bares, hy, labelsFrom_bares]
    exact h.labels
  instructions := by
    rw [← elements_bares, hy, elements_bares]
    exact h.instructions

/-- Instructions with the same number have parts that agree up to spans. -/
theorem Rearranged.parts {items items' : List Form} (h : Rearranged items items') {k : Nat} {x : Form}
    {parts : List Form} (hk : (elements items)[k]? = some (x, parts)) :
    ∃ y parts', (elements items')[k]? = some (y, parts') ∧ y.bare = x.bare ∧
      Form.bares parts' = Form.bares parts := by
  have hget : ((elements items').map (·.1.bare))[k]? = some x.bare := by
    rw [h.instructions, List.getElem?_map, hk]
    rfl
  rw [List.getElem?_map, Option.map_eq_some_iff] at hget
  obtain ⟨⟨y, parts'⟩, hk', hbare⟩ := hget
  obtain ⟨a, rfl⟩ : ∃ a, x = .list a parts := exists_list_of_mem_elements (List.mem_of_getElem? hk)
  obtain ⟨b, rfl⟩ : ∃ b, y = .list b parts' := exists_list_of_mem_elements (List.mem_of_getElem? hk')
  exact ⟨_, parts', hk', hbare, (Form.list.inj hbare).2⟩

theorem Rearranged.symm {items items' : List Form} (h : Rearranged items items')
    (hall : ∀ x ∈ items, isLabel x ∨ isInstruction x) : Rearranged items' items :=
  ⟨hall, h.labels.symm, h.instructions.symm⟩

theorem Rearranged.lookup {items items' : List Form} (h : Rearranged items items') (hn : (labelNames items).Nodup)
    (name : Bytes) : (labelsFrom 0 items').lookup name = (labelsFrom 0 items).lookup name := by
  have hnodup : ((labelsFrom 0 items).map (·.1)).Nodup := by
    rw [map_labelsFrom]
    exact hn
  exact (lookup_eq_of_perm h.labels.symm hnodup name).symm

theorem mem_elements_iff {items : List Form} {span : Span} {parts : List Form} :
    (.list span parts, parts) ∈ elements items ↔ .list span parts ∈ items := by
  constructor
  · intro h
    obtain ⟨x, hx, he⟩ := List.mem_filterMap.mp h
    obtain ⟨parts', -, he⟩ := Option.map_eq_some_iff.mp he
    have hxe : x = .list span parts := congrArg Prod.fst he
    rwa [← hxe]
  · intro h
    exact List.mem_filterMap.mpr ⟨_, h, rfl⟩

/-- **A rearranged controller is as well-formed.** -/
theorem Rearranged.wellFormed {items items' : List Form} (h : Rearranged items items') (hw : WellFormed items) :
    WellFormed items' where
  elements := h.all
  labels := by
    have hperm := h.labels.map (·.1)
    rw [map_labelsFrom, map_labelsFrom] at hperm
    exact hperm.nodup_iff.mpr hw.labels
  instructions := by
    intro span parts hmem
    obtain ⟨k, hk⟩ := List.mem_iff_getElem?.mp (mem_elements_iff.mpr hmem)
    obtain ⟨x, parts', hk', -, hbares⟩ := (h.symm hw.elements).parts hk
    obtain ⟨a, rfl⟩ : ∃ a, x = .list a parts' := exists_list_of_mem_elements (List.mem_of_getElem? hk')
    obtain ⟨c, hc⟩ := hw.instructions a parts' (mem_elements_iff.mp (List.mem_of_getElem? hk'))
    exact ⟨c, hc.transfer (h.lookup hw.labels) hbares.symm⟩

end Interpreter

/-- The second program has the instructions of the first one, by their texts and codes, and its labels. -/
structure SameProgram (p q : Program) : Prop where
  instructions : q.instructions.toList.map (fun ins => (ins.text, ins.code)) =
    p.instructions.toList.map (fun ins => (ins.text, ins.code))
  labels : q.labels.Perm p.labels
  lookup : ∀ name, q.labels.lookup name = p.labels.lookup name

theorem Interpreter.Assembled.text_eq {serial : Nat} {items : List Form} {p : Program}
    (hp : Assembled serial items p)
    {k : Nat} {ins : Instruction} (h : p.instructions[k]? = some ins) : ins.text = ins.source.text := by
  obtain ⟨parts, c, hx, -⟩ := hp.instruction h
  obtain ⟨d, hd, -⟩ := hp.code k _ _ hx
  exact congrArg Instruction.text (Option.some.inj (h.symm.trans hd))

/-- **Rearranged controllers make the same program.** -/
theorem Interpreter.Rearranged.sameProgram {items items' : List Form} {serial serial' : Nat} {p q : Program}
    (h : Rearranged items items') (hn : (labelNames items).Nodup) (hp : Assembled serial items p)
    (hq : Assembled serial' items' q) : SameProgram p q := by
  have hlookup : ∀ name, q.labels.lookup name = p.labels.lookup name := by
    rw [hp.labels_eq, hq.labels_eq]
    exact h.lookup hn
  refine ⟨?_, ?_, hlookup⟩
  · have hlength : (elements items').length = (elements items).length := by
      have := congrArg List.length h.instructions
      simpa using this
    have hsize : q.instructions.size = p.instructions.size := by
      have hp' : p.instructions.size = (elements items).length := hp.size_eq.trans (length_elements items).symm
      have hq' : q.instructions.size = (elements items').length := hq.size_eq.trans (length_elements items').symm
      omega
    refine List.ext_getElem? fun k => ?_
    rw [List.getElem?_map, List.getElem?_map, Array.getElem?_toList, Array.getElem?_toList]
    cases hk : p.instructions[k]? with
    | none =>
      have hnone : q.instructions[k]? = none := by
        rw [Array.getElem?_eq_none_iff] at hk ⊢
        omega
      rw [hnone]
    | some ins =>
      obtain ⟨parts, c, hx, hc, hshape⟩ := hp.instruction hk
      obtain ⟨y, parts', hy, hbare, hbares⟩ := h.parts hx
      obtain ⟨d, hd, hcompile⟩ := hq.code k _ _ hy
      have hcode : compile q.labels parts' = .ok c := compile_eq_ok_iff.mpr (hshape.transfer hlookup hbares)
      obtain rfl : c = d := Except.ok.inj (hcode.symm.trans hcompile)
      rw [hd, Option.map_some, Option.map_some, hc, hp.text_eq hk, Form.text_of_bare_eq hbare]
  · rw [hp.labels_eq, hq.labels_eq]
    exact h.labels

end RegisterMachine
