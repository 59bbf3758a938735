import RegisterMachine.Proofs.Interpreter

/-!
# What assembling makes of a controller

* `elements`: the instructions of a controller as they are written.
* `Assembled serial items p`: the program `p` has the labels of the controller, each at the number of instructions
  before it, and the instructions of the controller, compiled, in their order.
* `assembled_of_assemble`: every program that the assembler gives is one of these.
-/

namespace RegisterMachine

/-! ## Results that may be errors -/

section Except

variable {ε α β : Type}

theorem ok_bind (a : α) (f : α → Except ε β) : (.ok a >>= f) = f a := rfl

theorem bind_eq_ok {x : Except ε α} {f : α → Except ε β} {b : β} (h : (x >>= f) = .ok b) :
    ∃ a, x = .ok a ∧ f a = .ok b := by
  cases x with
  | error e => cases h
  | ok a => exact ⟨a, rfl, h⟩

theorem bind_eq_error {x : Except ε α} {f : α → Except ε β} {e : ε} (h : (x >>= f) = .error e) :
    x = .error e ∨ ∃ a, x = .ok a ∧ f a = .error e := by
  cases x with
  | error e' =>
    cases h
    exact .inl rfl
  | ok a => exact .inr ⟨a, rfl, h⟩

/-- What is only passed on cannot fail by itself. -/
theorem eq_error_of_bind_pure {x : Except ε α} {g : α → β} {e : ε}
    (h : (x >>= fun a => pure (g a)) = .error e) : x = .error e := by
  rcases bind_eq_error h with h | ⟨a, -, h⟩
  · exact h
  · cases h

theorem mapM_eq_ok {f : α → Except ε β} : ∀ {xs : List α} {ys : List β}, xs.mapM f = .ok ys →
    ys.length = xs.length ∧ ∀ (k : Nat) a, xs[k]? = some a → ∃ b, ys[k]? = some b ∧ f a = .ok b
  | [], ys, h => by
    obtain rfl : [] = ys := Except.ok.inj h
    exact ⟨rfl, fun k a ha => by simp at ha⟩
  | x :: xs, ys, h => by
    rw [List.mapM_cons] at h
    obtain ⟨y, hy, h⟩ := bind_eq_ok h
    obtain ⟨ys', hys, h⟩ := bind_eq_ok h
    obtain rfl : y :: ys' = ys := Except.ok.inj h
    obtain ⟨hlen, hget⟩ := mapM_eq_ok hys
    refine ⟨by simp [hlen], fun k a ha => ?_⟩
    cases k with
    | zero =>
      obtain rfl : x = a := by simpa using ha
      exact ⟨y, rfl, hy⟩
    | succ k => exact hget k a ha

/-- A traversal that fails does so at the first element that fails. -/
theorem mapM_eq_error {f : α → Except ε β} {e : ε} : ∀ {xs : List α}, xs.mapM f = .error e →
    ∃ before x after, xs = before ++ x :: after ∧ f x = .error e ∧ ∀ y ∈ before, ∃ b, f y = .ok b
  | [], h => by cases h
  | x :: xs, h => by
    rw [List.mapM_cons] at h
    cases hx : f x with
    | error e' =>
      rw [hx] at h
      obtain rfl : e' = e := Except.error.inj h
      exact ⟨[], x, xs, rfl, hx, by simp⟩
    | ok y =>
      rw [hx, ok_bind] at h
      cases hxs : xs.mapM f with
      | ok ys =>
        rw [hxs] at h
        cases h
      | error e' =>
        rw [hxs] at h
        obtain rfl : e' = e := Except.error.inj h
        obtain ⟨before, z, after, rfl, hz, hall⟩ := mapM_eq_error hxs
        exact ⟨x :: before, z, after, rfl, hz, List.forall_mem_cons.mpr ⟨⟨y, hx⟩, hall⟩⟩

/-- A fold whose steps all succeed succeeds. -/
theorem foldlM_ok {f : β → α → Except ε β} {I : β → Prop} {xs : List α}
    (hstep : ∀ b, ∀ a ∈ xs, I b → ∃ b', f b a = .ok b' ∧ I b') {b : β} (hb : I b) :
    ∃ b', xs.foldlM f b = .ok b' ∧ I b' := by
  induction xs generalizing b with
  | nil => exact ⟨b, rfl, hb⟩
  | cons a xs ih =>
    obtain ⟨b₁, hb₁, hI⟩ := hstep b a List.mem_cons_self hb
    rw [List.foldlM_cons, hb₁, ok_bind]
    exact ih (fun b a ha => hstep b a (List.mem_cons_of_mem _ ha)) hI

end Except

namespace Interpreter

/-- The instructions of a controller with their parts, in order. -/
def elements (items : List Form) : List (Form × List Form) := items.filterMap fun x => x.items?.map (x, ·)

theorem elements_cons_ident (span : Span) (name : Bytes) (rest : List Form) :
    elements (.ident span name :: rest) = elements rest := rfl

theorem elements_cons_list (span : Span) (parts rest : List Form) :
    elements (.list span parts :: rest) = (.list span parts, parts) :: elements rest := rfl

theorem length_elements (items : List Form) : (elements items).length = items.countP isInstruction := by
  induction items with
  | nil => rfl
  | cons x rest ih =>
    rw [List.countP_cons]
    cases x with
    | list span parts => rw [elements_cons_list, List.length_cons, ih]; rfl
    | ident | int | float | string | missing => exact ih

/-! ## Labels and instructions -/

/-- Splitting goes through the elements once and keeps what it finds last first. -/
theorem splitFrom_ok : ∀ {items : List Form} {s s' : Split} {position : Nat}, splitFrom s position items = .ok s' →
    s'.labels.reverse = s.labels.reverse ++ labelsFrom s.instructions.length items ∧
    s'.instructions.reverse.map (·.2) = s.instructions.reverse.map (·.2) ++ elements items ∧
    ∀ x ∈ items, isLabel x ∨ isInstruction x
  | [], s, s', _, h => by
    obtain rfl : s = s' := Except.ok.inj h
    exact ⟨(List.append_nil _).symm, (List.append_nil _).symm, fun x hx => absurd hx List.not_mem_nil⟩
  | x :: rest, s, s', position, h => by
    rw [splitFrom] at h
    obtain ⟨t, ht, h⟩ := bind_eq_ok h
    obtain ⟨hl, hi, hall⟩ := splitFrom_ok h
    cases x with
    | ident span name =>
      rw [Split.add] at ht
      split at ht
      · cases ht
      · obtain rfl := Except.ok.inj ht
        refine ⟨?_, hi, ?_⟩
        · simpa [labelsFrom] using hl
        · exact List.forall_mem_cons.mpr ⟨Or.inl rfl, hall⟩
    | list span parts =>
      obtain rfl := Except.ok.inj ht
      refine ⟨?_, ?_, ?_⟩
      · simpa [labelsFrom] using hl
      · rw [elements_cons_list]
        simpa using hi
      · exact List.forall_mem_cons.mpr ⟨Or.inr rfl, hall⟩
    | int | float | string | missing => cases ht

/-- The program is the controller with its labels bound and its instructions compiled. -/
structure Assembled (serial : Nat) (items : List Form) (p : Program) : Prop where
  layout_eq : p.layout = layout serial items
  all : ∀ x ∈ items, isLabel x ∨ isInstruction x
  code : ∀ (k : Nat) x parts, (elements items)[k]? = some (x, parts) →
    ∃ c, p.instructions[k]? = some ⟨k, x, x.text, some c⟩ ∧ compile p.labels parts = .ok c

variable {serial : Nat} {items : List Form} {p : Program}

theorem Assembled.size_eq (h : Assembled serial items p) : p.size = items.countP isInstruction :=
  congrArg Layout.size h.layout_eq

theorem Assembled.labels_eq (h : Assembled serial items p) : p.labels = labelsFrom 0 items :=
  congrArg Layout.labels h.layout_eq

/-- **What the assembler accepts is assembled.** -/
theorem assembled_of_assemble {controller : Form} (h : Program.assemble serial controller = .ok p) :
    ∃ items, controller.items? = some items ∧ Assembled serial items p := by
  unfold Program.assemble at h
  split at h
  · cases h
  · rename_i items hitems
    obtain ⟨s, hs, h⟩ := bind_eq_ok h
    obtain ⟨compiled, hc, h⟩ := bind_eq_ok h
    obtain rfl := Except.ok.inj h
    obtain ⟨hl, hi, hall⟩ := splitFrom_ok hs
    obtain ⟨hlen, hget⟩ := mapM_eq_ok hc
    have hl' : s.labels.reverse = labelsFrom 0 items := by simpa using hl
    have hi' : s.instructions.reverse.map (·.2) = elements items := by simpa using hi
    have hsize : compiled.length = items.countP isInstruction := by
      rw [hlen, ← length_elements, ← hi', List.length_map]
    refine ⟨items, hitems, ?_, hall, fun k x parts hk => ?_⟩
    · rw [Program.layout, Program.size, Program.size_ofElements, layout, hsize, ← hl']
      rfl
    · rw [← hi', List.getElem?_map, Option.map_eq_some_iff] at hk
      obtain ⟨⟨position, e⟩, hk, rfl⟩ := hk
      obtain ⟨el, hel, hce⟩ := hget k _ hk
      unfold compileElement at hce
      split at hce
      · rename_i c hcode
        obtain rfl := Except.ok.inj hce
        exact ⟨c, Program.getElem?_ofElements hel, hcode⟩
      · cases hce

/-! ## Positions and offsets -/

theorem before_zero (items : List Form) : before items 0 = 0 := rfl

theorem before_succ_cons (x : Form) (rest : List Form) (position : Nat) :
    before (x :: rest) (position + 1) = before rest position + if isInstruction x then 1 else 0 := by
  rw [before, List.take_succ_cons, List.countP_cons, before]

/-- Labels do not count. -/
theorem before_skipLabels : ∀ (items : List Form) (position : Nat),
    before items (skipLabels items position) = before items position
  | [], position => by simp [skipLabels, before]
  | x :: rest, 0 => by
    rw [skipLabels]
    split
    · rename_i hx
      have hn : isInstruction x = false := by cases x <;> simp_all [isLabel, isInstruction]
      rw [before_succ_cons, before_skipLabels rest 0, hn]
      rfl
    · rfl
  | x :: rest, position + 1 => by
    rw [skipLabels, before_succ_cons, before_succ_cons, before_skipLabels rest position]

/-- What stands behind the labels is the instruction with the number of those before it. -/
theorem elements_before : ∀ {items : List Form} (position : Nat), (∀ x ∈ items, isLabel x ∨ isInstruction x) →
    (elements items)[before items position]? =
      (items[skipLabels items position]?).bind fun x => x.items?.map (x, ·)
  | [], position, _ => by simp [elements]
  | x :: rest, 0, hall => by
    obtain ⟨hx, hrest⟩ := List.forall_mem_cons.mp hall
    cases x with
    | ident span name =>
      have ih := elements_before 0 hrest
      simpa [skipLabels, isLabel, before_zero, elements_cons_ident] using ih
    | list span parts => simp [skipLabels, isLabel, before_zero, elements_cons_list, Form.items?]
    | int | float | string | missing => simp [isLabel, isInstruction] at hx
  | x :: rest, position + 1, hall => by
    obtain ⟨hx, hrest⟩ := List.forall_mem_cons.mp hall
    have ih := elements_before position hrest
    cases x with
    | ident span name =>
      simpa [skipLabels, before_succ_cons, isInstruction, elements_cons_ident] using ih
    | list span parts =>
      simpa [skipLabels, before_succ_cons, isInstruction, elements_cons_list] using ih
    | int | float | string | missing => simp [isLabel, isInstruction] at hx

/-- An instruction counts for the position behind it. -/
theorem before_succ {items : List Form} {position : Nat} {span : Span} {parts : List Form}
    (h : items[position]? = some (.list span parts)) :
    before items (position + 1) = before items position + 1 := by
  unfold before
  rw [List.take_add_one, h, List.countP_append]
  rfl

/-- The position behind a label is where the label is bound. -/
theorem behind?_of_lookup : ∀ {items : List Form} {count : Nat} {name : Bytes} {offset : Nat},
    (labelsFrom count items).lookup name = some offset →
    ∃ position, behind? items name = some position ∧ offset = count + before items position
  | [], _, _, _, h => by simp [labelsFrom] at h
  | x :: rest, count, name, offset, h => by
    have hcons : ∀ {position}, isLabelOf name x = false → behind? rest name = some position →
        behind? (x :: rest) name = some (position + 1) := fun hx hp => by
      obtain ⟨i, hi, rfl⟩ := Option.map_eq_some_iff.mp hp
      simp [behind?, List.findIdx?_cons, hx, hi]
    cases x with
    | ident span n =>
      rw [labelsFrom, List.lookup_cons] at h
      by_cases hn : n = name
      · subst hn
        refine ⟨1, by simp [behind?, List.findIdx?_cons, isLabelOf], ?_⟩
        simp at h
        simp [before, isInstruction, h]
      · have hn' : (name == n) = false := by simpa using fun h => hn h.symm
        rw [hn'] at h
        obtain ⟨position, hp, rfl⟩ := behind?_of_lookup h
        refine ⟨position + 1, hcons (by simpa [isLabelOf] using hn) hp, ?_⟩
        simp [before_succ_cons, isInstruction]
    | list span parts =>
      rw [labelsFrom] at h
      obtain ⟨position, hp, rfl⟩ := behind?_of_lookup h
      refine ⟨position + 1, hcons rfl hp, ?_⟩
      simp [before_succ_cons, isInstruction]
      omega
    | int | float | string | missing =>
      simp only [labelsFrom] at h
      obtain ⟨position, hp, rfl⟩ := behind?_of_lookup h
      refine ⟨position + 1, hcons rfl hp, ?_⟩
      simp [before_succ_cons, isInstruction]

/-- Every number of instructions up to all of them stands before some position. -/
theorem before_afterInstructions : ∀ {items : List Form} {count : Nat}, count ≤ items.countP isInstruction →
    before items (afterInstructions items count) = count
  | _, 0, _ => by simp [afterInstructions, before]
  | [], count + 1, h => by simp at h
  | x :: rest, count + 1, h => by
    rw [afterInstructions, before_succ_cons]
    rw [List.countP_cons] at h
    by_cases hx : isInstruction x
    · simp only [hx, if_true] at h ⊢
      rw [before_afterInstructions (by omega)]
    · simp only [hx] at h ⊢
      rw [before_afterInstructions (by simpa using h)]
      rfl

/-- Only labels are left exactly if all instructions are before. -/
theorem all_isLabel_iff {items : List Form} (hall : ∀ x ∈ items, isLabel x ∨ isInstruction x) (position : Nat) :
    (items.drop position).all isLabel ↔ items.countP isInstruction ≤ before items position := by
  have hsplit : items.countP isInstruction =
      before items position + (items.drop position).countP isInstruction := by
    have h := @List.countP_append _ isInstruction (items.take position) (items.drop position)
    rwa [List.take_append_drop] at h
  rw [hsplit, List.all_eq_true]
  constructor
  · intro h
    have : (items.drop position).countP isInstruction = 0 := List.countP_eq_zero.mpr fun x hx => by
      have := h x hx
      cases x <;> simp_all [isLabel, isInstruction]
    omega
  · intro h x hx
    have h0 : (items.drop position).countP isInstruction = 0 := by omega
    have := List.countP_eq_zero.mp h0 x hx
    exact (hall x (List.mem_of_mem_drop hx)).resolve_right this

end Interpreter

end RegisterMachine
