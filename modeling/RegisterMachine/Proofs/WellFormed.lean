import Mathlib.Order.Bounds.Basic
import RegisterMachine.Proofs.RegisterUse

/-!
# Which controllers assemble

A controller is well-formed if it is made of labels and instructions, no label comes twice, and every instruction
has one of the shapes with labels of the controller only.  These are the controllers that assemble; of any other,
the assembler blames one element.

* `WellFormed`: the condition on the elements of a controller.
* `Misplaced`, `Malformed`: an element that spoils the division into labels and instructions, and an instruction
  that does not compile.
* `Blamed`: which position and text an error has to carry.
* `splitFrom_spec`, `assemble_spec`: the two passes of the assembler.
* `Machine.create_exactly`: the whole, with the registers.
-/

namespace RegisterMachine

open Interpreter

/-! ## Well-formed controllers -/

/-- The labels of a controller, in order. -/
def labelNames (items : List Form) : List Bytes := items.filterMap Form.name?

/-- The instruction has one of the shapes, and mentions only labels of the controller. -/
def WellShaped (items parts : List Form) : Prop := ∃ c, InstructionShape (labelsFrom 0 items) parts c

/-- The elements of a controller that can be assembled. -/
structure WellFormed (items : List Form) : Prop where
  elements : ∀ x ∈ items, isLabel x ∨ isInstruction x
  labels : (labelNames items).Nodup
  instructions : ∀ span parts, .list span parts ∈ items → WellShaped items parts

/-- The element at a position is neither a label nor an instruction, or a label that came before. -/
def Misplaced (items : List Form) (i : Nat) : Prop :=
  ∃ x, items[i]? = some x ∧
    ((isLabel x = false ∧ isInstruction x = false) ∨ ∃ name, x.name? = some name ∧
      name ∈ labelNames (items.take i))

/-- The element at a position is a list that is no well-formed instruction. -/
def Malformed (items : List Form) (i : Nat) : Prop :=
  ∃ span parts, items[i]? = some (.list span parts) ∧ ¬ WellShaped items parts

/-- Which position and text an error has to carry: none if the registers or the controller as a whole are at fault,
else those of the first element that is misplaced, and if there is none of these, of the first malformed
instruction. -/
inductive Blamed (registers : List Bytes) (controller : Form) : Option Nat → Bytes → Prop
  | registers (h : ¬ Fresh registers) : Blamed registers controller none []
  | controller (hr : Fresh registers) (h : controller.items? = none) : Blamed registers controller none []
  | element {items : List Form} {i : Nat} {x : Form} (hr : Fresh registers) (hc : controller.items? = some items)
    (h : IsLeast {i | Misplaced items i} i) (hx : items[i]? = some x) : Blamed registers controller (some i) x.text
  | instruction {items : List Form} {i : Nat} {x : Form} (hr : Fresh registers)
    (hc : controller.items? = some items)
    (hno : ∀ i, ¬ Misplaced items i) (h : IsLeast {i | Malformed items i} i) (hx : items[i]? = some x) :
    Blamed registers controller (some i) x.text

/-! ## Elements one after the other -/

theorem labelNames_append (items rest : List Form) :
    labelNames (items ++ rest) = labelNames items ++ labelNames rest :=
  List.filterMap_append

theorem misplaced_append_left {items : List Form} {i : Nat} (h : i < items.length) (rest : List Form) :
    Misplaced (items ++ rest) i ↔ Misplaced items i := by
  unfold Misplaced
  rw [List.getElem?_append_left h, List.take_append_of_le_length (Nat.le_of_lt h)]

theorem misplaced_length (items : List Form) (x : Form) (rest : List Form) :
    Misplaced (items ++ x :: rest) items.length ↔
      (isLabel x = false ∧ isInstruction x = false) ∨ ∃ name, x.name? = some name ∧ name ∈ labelNames items := by
  unfold Misplaced
  rw [List.getElem?_append_right (Nat.le_refl _), Nat.sub_self, List.take_left]
  simp

theorem Misplaced.lt {items : List Form} {i : Nat} (h : Misplaced items i) : i < items.length := by
  obtain ⟨x, hx, -⟩ := h
  exact (List.getElem?_eq_some_iff.mp hx).1

/-- Without misplaced elements there are only labels and instructions, and no label twice. -/
theorem forall_not_misplaced_iff (items : List Form) :
    (∀ i, ¬ Misplaced items i) ↔ (∀ x ∈ items, isLabel x ∨ isInstruction x) ∧ (labelNames items).Nodup := by
  induction items using List.reverseRecOn with
  | nil => simp [Misplaced, labelNames]
  | append_singleton items x ih =>
    have hsplit : (∀ i, ¬ Misplaced (items ++ [x]) i) ↔
        (∀ i, ¬ Misplaced items i) ∧ ¬ Misplaced (items ++ [x]) items.length := by
      constructor
      · intro h
        refine ⟨fun i hi => h i ?_, h _⟩
        exact (misplaced_append_left hi.lt [x]).mpr hi
      · rintro ⟨h, hlast⟩ i hi
        have hlt : i < items.length + 1 := by simpa using hi.lt
        rcases Nat.lt_succ_iff_lt_or_eq.mp hlt with hlt | rfl
        · exact h i ((misplaced_append_left hlt [x]).mp hi)
        · exact hlast hi
    have hlast : ¬ Misplaced (items ++ [x]) items.length ↔
        (isLabel x ∨ isInstruction x) ∧ ∀ name, x.name? = some name → name ∉ labelNames items := by
      rw [misplaced_length, not_or, not_and_or, not_exists]
      simp only [Bool.not_eq_false, not_and]
    have hnodup : (labelNames (items ++ [x])).Nodup ↔
        (labelNames items).Nodup ∧ ∀ name, x.name? = some name → name ∉ labelNames items := by
      have hx : labelNames [x] = x.name?.toList := by cases x <;> rfl
      rw [labelNames_append, hx]
      cases x.name? with
      | none => simp
      | some name => simp [List.nodup_append, imp_not_comm]
    rw [hsplit, ih, hlast, hnodup, List.forall_mem_append, List.forall_mem_singleton]
    tauto

theorem forall_not_malformed_iff (items : List Form) :
    (∀ i, ¬ Malformed items i) ↔ ∀ span parts, .list span parts ∈ items → WellShaped items parts := by
  constructor
  · intro h span parts hmem
    by_contra hno
    obtain ⟨i, hi⟩ := List.getElem?_of_mem hmem
    exact h i ⟨span, parts, hi, hno⟩
  · rintro h i ⟨span, parts, hi, hno⟩
    exact hno (h span parts (List.mem_of_getElem? hi))

theorem wellFormed_iff (items : List Form) :
    WellFormed items ↔ (∀ i, ¬ Misplaced items i) ∧ ∀ i, ¬ Malformed items i := by
  rw [forall_not_misplaced_iff, forall_not_malformed_iff]
  exact ⟨fun h => ⟨⟨h.elements, h.labels⟩, h.instructions⟩, fun h => ⟨h.1.1, h.1.2, h.2⟩⟩

/-! ## The first pass: labels and instructions -/

/-- **The division into labels and instructions** fails exactly at the first misplaced element.  The elements of
`done` are divided already. -/
theorem splitFrom_spec {done rest : List Form} {s : Split}
    (hlabels : ∀ name, (s.labels.lookup name).isSome ↔ name ∈ labelNames done)
    (hdone : ∀ i < done.length, ¬ Misplaced (done ++ rest) i) :
    (∃ s', splitFrom s done.length rest = .ok s' ∧ ∀ i, ¬ Misplaced (done ++ rest) i) ∨
      ∃ e i x, splitFrom s done.length rest = .error e ∧ e.position = some i ∧ (done ++ rest)[i]? = some x ∧
        e.text = x.text ∧ IsLeast {i | Misplaced (done ++ rest) i} i := by
  induction rest generalizing done s with
  | nil =>
    refine .inl ⟨s, rfl, fun i hi => hdone i ?_ hi⟩
    simpa using hi.lt
  | cons x rest ih =>
    rw [splitFrom]
    have hx : (done ++ x :: rest)[done.length]? = some x := by simp
    have hleast : Misplaced (done ++ x :: rest) done.length →
        IsLeast {i | Misplaced (done ++ x :: rest) i} done.length :=
      fun h => ⟨h, fun i hi => Nat.le_of_not_lt fun hlt => hdone i hlt hi⟩
    -- an element that is in its place is done
    have hnext : ¬ Misplaced (done ++ x :: rest) done.length → ∀ t : Split,
        (∀ name, (t.labels.lookup name).isSome ↔ name ∈ labelNames (done ++ [x])) →
        (∃ s', splitFrom t (done.length + 1) rest = .ok s' ∧ ∀ i, ¬ Misplaced (done ++ x :: rest) i) ∨
          ∃ e i y, splitFrom t (done.length + 1) rest = .error e ∧ e.position = some i ∧
            (done ++ x :: rest)[i]? = some y ∧ e.text = y.text ∧
            IsLeast {i | Misplaced (done ++ x :: rest) i} i := by
      intro hno t ht
      have hlength : (done ++ [x]).length = done.length + 1 := by simp
      have happend : done ++ [x] ++ rest = done ++ x :: rest := by simp
      rw [← hlength, ← happend]
      refine ih ht fun i hi => ?_
      rw [happend]
      rcases Nat.lt_succ_iff_lt_or_eq.mp (hlength ▸ hi) with hi | rfl
      · exact hdone i hi
      · exact hno
    rw [misplaced_length] at hleast hnext
    cases x with
    | ident span name =>
      rw [Split.add]
      split
      · next hseen =>
        refine .inr ⟨_, _, _, rfl, rfl, hx, rfl, hleast (.inr ⟨name, rfl, (hlabels name).mp hseen⟩)⟩
      · next hseen =>
        refine hnext ?_ _ fun n => ?_
        · rintro (⟨h, -⟩ | ⟨n, hn, hmem⟩)
          · cases h
          · cases hn
            exact hseen ((hlabels name).mpr hmem)
        · rw [labelNames_append, List.mem_append, ← hlabels, List.lookup_cons]
          by_cases hn : n = name
          · simp [hn, labelNames, Form.name?]
          · have hne : (n == name) = false := by simpa using hn
            simp [hne, hn, labelNames, Form.name?]
    | list span parts =>
      refine hnext ?_ _ fun n => ?_
      · rintro (⟨-, h⟩ | ⟨n, hn, -⟩)
        · cases h
        · cases hn
      · rw [labelNames_append, List.mem_append, ← hlabels]
        simp [labelNames, Form.name?]
    | int | float | string | missing => exact .inr ⟨_, _, _, rfl, rfl, hx, rfl, hleast (.inl ⟨rfl, rfl⟩)⟩

/-- The instructions of a controller with their positions and parts; the first element stands at `position`. -/
def placedElements (position : Nat) (items : List Form) : List (Nat × Form × List Form) :=
  (items.zipIdx position).filterMap fun e => e.1.items?.map (e.2, e.1, ·)

theorem splitFrom_instructions {items : List Form} {s s' : Split} {position : Nat}
    (h : splitFrom s position items = .ok s') :
    s'.instructions.reverse = s.instructions.reverse ++ placedElements position items := by
  induction items generalizing s position with
  | nil =>
    obtain rfl : s = s' := Except.ok.inj h
    exact (List.append_nil _).symm
  | cons x rest ih =>
    rw [splitFrom] at h
    obtain ⟨t, ht, h⟩ := bind_eq_ok h
    rw [ih h]
    cases x with
    | ident span name =>
      rw [Split.add] at ht
      split at ht
      · cases ht
      · obtain rfl := Except.ok.inj ht
        rfl
    | list span parts =>
      obtain rfl := Except.ok.inj ht
      simp [placedElements, Form.items?]
    | int | float | string | missing => cases ht

theorem mem_placedElements_iff {items : List Form} {e : Nat × Form × List Form} :
    e ∈ placedElements 0 items ↔ ∃ span, items[e.1]? = some e.2.1 ∧ e.2.1 = .list span e.2.2 := by
  obtain ⟨i, x, parts⟩ := e
  simp only [placedElements, List.mem_filterMap, Prod.exists, List.mem_zipIdx_iff_getElem?, Option.map_eq_some_iff]
  constructor
  · rintro ⟨y, j, hj, q, hq, he⟩
    cases he
    cases x with
    | list span items =>
      cases hq
      exact ⟨span, hj, rfl⟩
    | ident | int | float | string | missing => cases hq
  · rintro ⟨span, hi, rfl⟩
    exact ⟨_, i, hi, parts, rfl, rfl⟩

/-- Instructions come in the order of their positions. -/
theorem pairwise_placedElements (position : Nat) (items : List Form) :
    (placedElements position items).Pairwise fun a b => a.1 < b.1 := by
  have hpairs : (items.zipIdx position).Pairwise fun a b => a.2 < b.2 := by
    have := List.pairwise_lt_range' (s := position) (n := items.length) 1
    rw [← List.zipIdx_map_snd, List.pairwise_map] at this
    exact this
  refine hpairs.filterMap _ fun a b hab a' ha b' hb => ?_
  obtain ⟨q, -, rfl⟩ := Option.map_eq_some_iff.mp ha
  obtain ⟨r, -, rfl⟩ := Option.map_eq_some_iff.mp hb
  exact hab

/-! ## The second pass: compiling -/

theorem compileElement_error {labels : List (Bytes × Nat)} {el : Nat × Form × List Form} {e : AssemblyError}
    (h : compileElement labels el = .error e) :
    e.position = some el.1 ∧ e.text = el.2.1.text ∧ ¬ ∃ c, InstructionShape labels el.2.2 c := by
  unfold compileElement at h
  split at h
  · cases h
  · next hc =>
    cases h
    refine ⟨rfl, rfl, ?_⟩
    rintro ⟨c, hshape⟩
    rw [compile_of_instructionShape hshape] at hc
    cases hc

theorem compileElement_ok {labels : List (Bytes × Nat)} {el : Nat × Form × List Form} {ins : Form × Code}
    (h : compileElement labels el = .ok ins) : ∃ c, InstructionShape labels el.2.2 c := by
  unfold compileElement at h
  split at h
  · next c hc => exact ⟨c, instructionShape_of_compile hc⟩
  · cases h

/-- **Compiling** fails exactly at the first malformed instruction. -/
theorem compileAll_spec (items : List Form) :
    (∃ is, (placedElements 0 items).mapM (compileElement (labelsFrom 0 items)) = .ok is ∧
      ∀ i, ¬ Malformed items i) ∨
      ∃ e i x, (placedElements 0 items).mapM (compileElement (labelsFrom 0 items)) = .error e ∧
        e.position = some i ∧ items[i]? = some x ∧ e.text = x.text ∧ IsLeast {i | Malformed items i} i := by
  have hplace {i : Nat} {span : Span} {parts : List Form} (h : items[i]? = some (.list span parts)) :
      (i, .list span parts, parts) ∈ placedElements 0 items := mem_placedElements_iff.mpr ⟨span, h, rfl⟩
  cases hm : (placedElements 0 items).mapM (compileElement (labelsFrom 0 items)) with
  | ok is =>
    refine .inl ⟨is, rfl, ?_⟩
    rintro i ⟨span, parts, hi, hno⟩
    obtain ⟨k, hk⟩ := List.getElem?_of_mem (hplace hi)
    obtain ⟨ins, -, hins⟩ := (mapM_eq_ok hm).2 k _ hk
    exact hno (compileElement_ok hins)
  | error e =>
    obtain ⟨before, ⟨i, x, parts⟩, after, hsplit, he, hbefore⟩ := mapM_eq_error hm
    obtain ⟨hpos, htext, hno⟩ := compileElement_error he
    have hmem : (i, x, parts) ∈ placedElements 0 items := by simp [hsplit]
    obtain ⟨span, hi, hx⟩ := mem_placedElements_iff.mp hmem
    obtain rfl : x = .list span parts := hx
    refine .inr ⟨e, i, _, rfl, hpos, hi, htext, ⟨span, parts, hi, hno⟩, ?_⟩
    -- whatever comes earlier compiled
    rintro j ⟨span', parts', hj, hno'⟩
    refine Nat.le_of_not_lt fun hlt => ?_
    have hjmem := hplace hj
    have hpairs := pairwise_placedElements 0 items
    rw [hsplit] at hjmem hpairs
    rcases List.mem_append.mp hjmem with hjmem | hjmem
    · obtain ⟨ins, hins⟩ := hbefore _ hjmem
      exact hno' (compileElement_ok hins)
    · rcases List.mem_cons.mp hjmem with heq | hjmem
      · cases heq
        omega
      · have hlater := (List.pairwise_cons.mp (List.pairwise_append.mp hpairs).2.1).1 _ hjmem
        dsimp only at hlater
        omega

/-- **What the assembler makes of a list**: a program if it is well-formed, else an error that names the element at
fault. -/
theorem assemble_spec (serial : Nat) {controller : Form} {items : List Form}
    (hc : controller.items? = some items) :
    (∃ p, Program.assemble serial controller = .ok p ∧ WellFormed items) ∨
      ∃ e i x, Program.assemble serial controller = .error e ∧ e.position = some i ∧ items[i]? = some x ∧
        e.text = x.text ∧
        (IsLeast {i | Misplaced items i} i ∨ (∀ i, ¬ Misplaced items i) ∧ IsLeast {i | Malformed items i} i) := by
  unfold Program.assemble
  rw [hc]
  have hsplit := @splitFrom_spec [] items {} (by simp [labelNames]) (by simp)
  rcases hsplit with ⟨s, hs, hno⟩ | ⟨e, i, x, he, hpos, hx, htext, hleast⟩
  · have hs' : splitController items = .ok s := hs
    have hlabels : s.labels.reverse = labelsFrom 0 items := by simpa using (splitFrom_ok hs').1
    have hins : s.instructions.reverse = placedElements 0 items := by simpa using splitFrom_instructions hs'
    simp only [hs', ok_bind, hlabels, hins]
    rcases compileAll_spec items with ⟨is, his, hmal⟩ | ⟨e, i, x, he, hpos, hx, htext, hleast⟩
    · rw [his]
      exact .inl ⟨_, rfl, (wellFormed_iff items).mpr ⟨hno, hmal⟩⟩
    · rw [he]
      exact .inr ⟨e, i, x, rfl, hpos, hx, htext, .inr ⟨hno, hleast⟩⟩
  · have he' : splitController items = .error e := he
    dsimp only
    rw [he']
    exact .inr ⟨e, i, x, rfl, hpos, hx, htext, .inl hleast⟩

theorem wellFormed_of_assemble {serial : Nat} {controller : Form} {items : List Form} {p : Program}
    (hc : controller.items? = some items) (h : Program.assemble serial controller = .ok p) : WellFormed items := by
  rcases assemble_spec serial hc with ⟨q, -, hw⟩ | ⟨e, i, x, he, -⟩
  · exact hw
  · rw [h] at he
    cases he

/-! ## Registers -/

theorem has_empty_iff (name : Bytes) : State.has {} name = false ↔ isAllocated name = true := by
  rw [Bool.eq_false_iff, Ne, State.has_iff]
  simp [isAllocated, State.names]

theorem fresh_iff (names : List Bytes) :
    Fresh names ↔ names.Nodup ∧ ∀ name ∈ names, State.has {} name = false := by
  simp only [has_empty_iff]
  exact ⟨fun h => ⟨h.nodup, h.allocated⟩, fun h => ⟨h.1, h.2⟩⟩

/-- Names that were allocated are distinct, and none was there before. -/
theorem allocateAll_ok {names : List Bytes} {s s' : State} (h : Machine.allocateAll s names = .ok s') :
    names.Nodup ∧ ∀ name ∈ names, s.has name = false := by
  induction names generalizing s with
  | nil => simp
  | cons name names ih =>
    rw [Machine.allocateAll] at h
    cases hname : s.has name with
    | true =>
      rw [State.allocate?, if_pos hname] at h
      cases h
    | false =>
      rw [State.allocate?_of_not_has hname] at h
      obtain ⟨hnodup, hfree⟩ := ih h
      -- what is free after the allocation was free before, and is another name
      have hafter : ∀ r ∈ names, s.has r = false ∧ r ≠ name := by
        intro r hr
        have hno := hfree r hr
        rw [Bool.eq_false_iff, Ne, State.has_iff] at hno ⊢
        simp only [State.names, List.map_append, List.map_cons, List.map_nil, List.mem_append, List.mem_singleton]
          at hno ⊢
        tauto
      refine ⟨List.nodup_cons.mpr ⟨fun hmem => (hafter name hmem).2 rfl, hnodup⟩, ?_⟩
      exact List.forall_mem_cons.mpr ⟨hname, fun r hr => (hafter r hr).1⟩

theorem allocateAll_error {names : List Bytes} {s : State} {e : AssemblyError}
    (h : Machine.allocateAll s names = .error e) : e.position = none ∧ e.text = [] := by
  induction names generalizing s with
  | nil => cases h
  | cons name names ih =>
    rw [Machine.allocateAll] at h
    split at h
    · exact ih h
    · cases h
      exact ⟨rfl, rfl⟩

/-- **The registers of a machine** can be allocated exactly if they are distinct and none is `pc` or `flag`. -/
theorem allocateAll_spec (names : List Bytes) :
    (∃ s, Machine.allocateAll {} names = .ok s ∧ Fresh names) ∨
      ∃ e, Machine.allocateAll {} names = .error e ∧ e.position = none ∧ e.text = [] ∧ ¬ Fresh names := by
  cases h : Machine.allocateAll {} names with
  | ok s => exact .inl ⟨s, rfl, (fresh_iff names).mpr (allocateAll_ok h)⟩
  | error e =>
    obtain ⟨hpos, htext⟩ := allocateAll_error h
    refine .inr ⟨e, rfl, hpos, htext, fun hfresh => ?_⟩
    obtain ⟨hnodup, hfree⟩ := (fresh_iff names).mp hfresh
    obtain ⟨s, hs⟩ := allocateAll_of_nodup hnodup hfree
    rw [hs] at h
    cases h

/-! ## Machines -/

/-- There is one place to blame. -/
theorem Blamed.unique {registers : List Bytes} {controller : Form} {p q : Option Nat} {t u : Bytes}
    (h : Blamed registers controller p t) (h' : Blamed registers controller q u) : p = q ∧ t = u := by
  have hsame {items items' : List Form} (h : controller.items? = some items)
      (h' : controller.items? = some items') :
      items = items' := Option.some.inj (h.symm.trans h')
  cases h with
  | registers h =>
    cases h' with
    | registers => exact ⟨rfl, rfl⟩
    | controller hr | element hr | instruction hr => exact absurd hr h
  | controller hr h =>
    cases h' with
    | registers h => exact absurd hr h
    | controller => exact ⟨rfl, rfl⟩
    | element _ hc | instruction _ hc =>
      rw [h] at hc
      cases hc
  | element hr hc h hx =>
    cases h' with
    | registers h => exact absurd hr h
    | controller _ h =>
      rw [h] at hc
      cases hc
    | element _ hc' h' hx' =>
      obtain rfl := hsame hc hc'
      obtain rfl := h.unique h'
      obtain rfl := Option.some.inj (hx.symm.trans hx')
      exact ⟨rfl, rfl⟩
    | instruction _ hc' hno =>
      obtain rfl := hsame hc hc'
      exact absurd h.1 (hno _)
  | instruction hr hc hno h hx =>
    cases h' with
    | registers h => exact absurd hr h
    | controller _ h =>
      rw [h] at hc
      cases hc
    | element _ hc' h' =>
      obtain rfl := hsame hc hc'
      exact absurd h'.1 (hno _)
    | instruction _ hc' _ h' hx' =>
      obtain rfl := hsame hc hc'
      obtain rfl := h.unique h'
      obtain rfl := Option.some.inj (hx.symm.trans hx')
      exact ⟨rfl, rfl⟩

namespace Machine

variable (serial : Nat) (registers : List Bytes) (host : Table) (console : Console) (controller : Form)

/-- Registers that can be allocated leave only the assembler to fail. -/
theorem create_of_fresh (hfresh : Fresh registers) :
    (∃ m, create serial registers host console controller = .ok m) ∨
      ∃ e, create serial registers host console controller = .error e ∧
        Program.assemble serial controller = .error e := by
  obtain ⟨hnodup, hfree⟩ := (fresh_iff registers).mp hfresh
  obtain ⟨s, hs⟩ := allocateAll_of_nodup hnodup hfree
  unfold create
  rw [hs, ok_bind]
  cases Program.assemble serial controller with
  | ok p => exact .inl ⟨_, rfl⟩
  | error e => exact .inr ⟨e, rfl, rfl⟩

/-- What creating a machine comes to: its registers are allocated and its controller is assembled. -/
theorem create_spec :
    (∃ m, create serial registers host console controller = .ok m ∧ Fresh registers ∧
      ∃ items, controller.items? = some items ∧ WellFormed items) ∨
    ∃ e, create serial registers host console controller = .error e ∧
      Blamed registers controller e.position e.text := by
  unfold create
  rcases allocateAll_spec registers with ⟨s, hs, hr⟩ | ⟨e, he, hpos, htext, hr⟩
  · rw [hs, ok_bind]
    cases hc : controller.items? with
    | none =>
      have hasm : Program.assemble serial controller = .error { cause := .notList controller.kindName } := by
        rw [Program.assemble, hc]
      rw [hasm]
      exact .inr ⟨_, rfl, .controller hr hc⟩
    | some items =>
      rcases assemble_spec serial hc with ⟨p, hp, hw⟩ | ⟨e, i, x, he, hpos, hx, htext, hblame⟩
      · rw [hp]
        exact .inl ⟨_, rfl, hr, items, rfl, hw⟩
      · rw [he]
        refine .inr ⟨e, rfl, ?_⟩
        rw [hpos, htext]
        rcases hblame with hleast | ⟨hno, hleast⟩
        · exact .element hr hc hleast hx
        · exact .instruction hr hc hno hleast hx
  · rw [he]
    refine .inr ⟨e, rfl, ?_⟩
    rw [hpos, htext]
    exact .registers hr

theorem not_wellFormed_of_blamed {p : Option Nat} {t : Bytes} (h : Blamed registers controller p t) :
    ¬ (Fresh registers ∧ ∃ items, controller.items? = some items ∧ WellFormed items) := by
  rintro ⟨hr, items, hc, hw⟩
  obtain ⟨hno, hmal⟩ := (wellFormed_iff items).mp hw
  cases h with
  | registers h => exact h hr
  | controller _ h =>
    rw [h] at hc
    cases hc
  | @element items' i x _ hc' h =>
    obtain rfl : items = items' := Option.some.inj (hc.symm.trans hc')
    exact hno i h.1
  | @instruction items' i x _ hc' _ h =>
    obtain rfl : items = items' := Option.some.inj (hc.symm.trans hc')
    exact hmal i h.1

/-- **The assembler accepts exactly the well-formed controllers, and blames the right element of any other.**  A
machine is created exactly if its registers are distinct and none is `pc` or `flag`, and its controller is a
well-formed list.  Otherwise there is an error, which carries the position and text that are to be blamed and no
other.  What operations the host provides makes no difference to either. -/
theorem create_exactly :
    ((∃ m, create serial registers host console controller = .ok m) ↔
      Fresh registers ∧ ∃ items, controller.items? = some items ∧ WellFormed items) ∧
    ((∃ e, create serial registers host console controller = .error e ∧
        ∀ p t, Blamed registers controller p t ↔ e.position = p ∧ e.text = t) ↔
      ¬ (Fresh registers ∧ ∃ items, controller.items? = some items ∧ WellFormed items)) ∧
    ∀ (host' : Table) (console' : Console) (e : AssemblyError),
      create serial registers host' console' controller = .error e ↔
        create serial registers host console controller = .error e := by
  refine ⟨?_, ?_, fun host' console' e => ?_⟩
  · rcases create_spec serial registers host console controller with ⟨m, hm, hw⟩ | ⟨e, he, hblame⟩
    · exact ⟨fun _ => hw, fun _ => ⟨m, hm⟩⟩
    · have hno := not_wellFormed_of_blamed registers controller hblame
      refine iff_of_false ?_ hno
      rintro ⟨m, hm⟩
      rw [he] at hm
      cases hm
  · rcases create_spec serial registers host console controller with ⟨m, hm, hw⟩ | ⟨e, he, hblame⟩
    · refine iff_of_false ?_ (fun h => h hw)
      rintro ⟨e, he, -⟩
      rw [hm] at he
      cases he
    · have hno := not_wellFormed_of_blamed registers controller hblame
      refine iff_of_true ⟨e, he, fun p t => ⟨fun h => hblame.unique h, ?_⟩⟩ hno
      rintro ⟨rfl, rfl⟩
      exact hblame
  · unfold create
    cases allocateAll {} registers with
    | error e' => rfl
    | ok s =>
      rw [ok_bind, ok_bind]
      cases Program.assemble serial controller with
      | error e' => rfl
      | ok p =>
        constructor
        · intro h
          cases h
        · intro h
          cases h

end Machine

end RegisterMachine
