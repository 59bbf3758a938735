import Mathlib.Data.List.Forall2
import RegisterMachine.Proofs.Refinement

/-!
# The shapes of instructions

What the parts of an instruction look like if it compiles, and what it compiles to.

* `OperandShape`, `InstructionShape`: a written operand or instruction and its compiled form.
* `compile_eq_ok_iff`: what compiles is what has one of the shapes.
* `Code.destinations`: the offsets that an instruction can jump to or hand on.
* `Program.registers`: the registers that the instructions refer to, in the order in which they are written.
* `Assembled.destinations_le`: labels and destinations lie inside the program.
-/

namespace RegisterMachine

/-! ## What a program refers to -/

/-- The offset that an operand denotes. -/
def Operand.destination? : Operand → Option Nat
  | label _ offset => some offset
  | _ => none

namespace Code

/-- Where an instruction itself can jump to. -/
def jump? : Code → Option Nat
  | branch _ offset | goto _ offset => some offset
  | _ => none

/-- The offsets that an instruction can jump to or hand on. -/
def destinations (c : Code) : List Nat := c.jump?.toList ++ c.operands.filterMap Operand.destination?

end Code

/-- The registers that the instructions of a program refer to, in the order in which they are written. -/
def Program.registers (p : Program) : List Bytes :=
  p.instructions.toList.flatMap fun ins => (ins.code.map Code.registers).getD []

namespace Interpreter

/-! ## Shapes -/

/-- An operand as it is written and as it is compiled. -/
inductive OperandShape (labels : List (Bytes × Nat)) : Form → Operand → Prop
  | const {a b : Span} {x : Form} : OperandShape labels (.list a [.ident b (utf8 "const"), x]) (.const x.datum)
  | label {a b c : Span} {name : Bytes} {offset : Nat} (h : labels.lookup name = some offset) :
    OperandShape labels (.list a [.ident b (utf8 "label"), .ident c name]) (.label name offset)
  | reg {a b c : Span} {name : Bytes} :
    OperandShape labels (.list a [.ident b (utf8 "reg"), .ident c name]) (.reg name)

/-- An operation with its operands as it is written and as it is compiled. -/
inductive CallShape (labels : List (Bytes × Nat)) : List Form → Call → Prop
  | mk {a b c : Span} {name : Bytes} {args : List Form} {os : List Operand}
    (h : List.Forall₂ (OperandShape labels) args os) :
    CallShape labels (.list a [.ident b (utf8 "op"), .ident c name] :: args) ⟨name, os⟩

/-- An instruction as it is written and as it is compiled. -/
inductive InstructionShape (labels : List (Bytes × Nat)) : List Form → Code → Prop
  | assign {a b : Span} {name : Bytes} {x : Form} {o : Operand} (h : OperandShape labels x o) :
    InstructionShape labels [.ident a (utf8 "assign"), .ident b name, x] (.assign name (some (.operand o)))
  | compute {a b : Span} {name : Bytes} {xs : List Form} {c : Call} (h : CallShape labels xs c) :
    InstructionShape labels (.ident a (utf8 "assign") :: .ident b name :: xs) (.assign name (some (.call c)))
  | test {a : Span} {xs : List Form} {c : Call} (h : CallShape labels xs c) :
    InstructionShape labels (.ident a (utf8 "test") :: xs) (.test c)
  | branch {a b c d : Span} {name : Bytes} {offset : Nat} (h : labels.lookup name = some offset) :
    InstructionShape labels
      [.ident a (utf8 "branch"), .list b [.ident c (utf8 "label"), .ident d name]] (.branch name offset)
  | goto {a b c d : Span} {name : Bytes} {offset : Nat} (h : labels.lookup name = some offset) :
    InstructionShape labels
      [.ident a (utf8 "goto"), .list b [.ident c (utf8 "label"), .ident d name]] (.goto name offset)
  | gotoReg {a b c d : Span} {name : Bytes} :
    InstructionShape labels [.ident a (utf8 "goto"), .list b [.ident c (utf8 "reg"), .ident d name]]
      (.gotoReg name)
  | save {a b : Span} {name : Bytes} : InstructionShape labels [.ident a (utf8 "save"), .ident b name] (.save name)
  | restore {a b : Span} {name : Bytes} :
    InstructionShape labels [.ident a (utf8 "restore"), .ident b name] (.restore name)
  | perform {a : Span} {xs : List Form} {c : Call} (h : CallShape labels xs c) :
    InstructionShape labels (.ident a (utf8 "perform") :: xs) (.perform c)

section Compile

variable {labels : List (Bytes × Nat)}

theorem lookup_of_resolve {name : Bytes} {offset : Nat} (h : resolve labels name = .ok offset) :
    labels.lookup name = some offset := by
  unfold resolve at h
  split at h
  · next ho => rw [ho, Except.ok.inj h]
  · cases h

theorem operandShape_of_compile {x : Form} {o : Operand} (h : compileOperand labels x = .ok o) :
    OperandShape labels x o := by
  unfold compileOperand at h
  cases x with
  | list span parts =>
    simp only [Form.items?] at h
    split at h
    · next hv =>
      obtain ⟨b, rfl⟩ := tagged?_eq_some hv
      cases h
      exact .const
    split at h
    · next hv =>
      obtain ⟨b, rfl⟩ := tagged?_eq_some hv
      obtain ⟨offset, ho, h⟩ := bind_eq_ok h
      cases h
      exact .label (lookup_of_resolve ho)
    · cases h
    split at h
    · next hv =>
      obtain ⟨b, rfl⟩ := tagged?_eq_some hv
      cases h
      exact .reg
    · cases h
  | ident | int | float | string | missing => cases h

theorem operandShapes_of_compile {op : Bytes} : ∀ {xs : List Form} {os : List Operand} {index : Nat},
    compileOperands labels op index xs = .ok os → List.Forall₂ (OperandShape labels) xs os
  | [], os, index, h => by
    cases h
    exact .nil
  | x :: xs, os, index, h => by
    rw [compileOperands] at h
    split at h
    · cases h
    · next o ho =>
      obtain ⟨os', hos, h⟩ := bind_eq_ok h
      cases h
      exact .cons (operandShape_of_compile ho) (operandShapes_of_compile hos)

theorem callShape_of_compile {xs args : List Form} {x : Form} (hx : operation? xs = some (x, args)) {c : Call}
    (h : compileCall labels x args = .ok c) : CallShape labels xs c := by
  obtain ⟨a, b, rfl⟩ := operation?_eq_some hx
  unfold compileCall at h
  split at h
  · obtain ⟨os, hos, h⟩ := bind_eq_ok h
    cases h
    exact .mk (operandShapes_of_compile hos)
  · cases h

theorem assignShape_of_compile {a : Span} {args : List Form} {c : Code} (h : compileAssign labels args = .ok c) :
    InstructionShape labels (.ident a (utf8 "assign") :: args) c := by
  unfold compileAssign at h
  split at h
  · next target x rest =>
    split at h
    · split at h
      · next hx =>
        obtain ⟨call, hc, h⟩ := bind_eq_ok h
        cases h
        exact .compute (callShape_of_compile hx hc)
      · split at h
        · cases h
        · next hrest =>
          obtain rfl : rest = [] := by simpa using hrest
          obtain ⟨o, ho, h⟩ := bind_eq_ok h
          cases h
          exact .assign (operandShape_of_compile ho)
    · cases h
  · cases h

theorem actionShape_of_compile {make : Call → Code} {bad : AssemblyCause} {args : List Form} {c : Code}
    (h : compileAction labels make bad args = .ok c) : ∃ call, c = make call ∧ CallShape labels args call := by
  unfold compileAction at h
  split at h
  · next hx =>
    obtain ⟨call, hc, h⟩ := bind_eq_ok h
    cases h
    exact ⟨call, rfl, callShape_of_compile hx hc⟩
  · cases h

theorem branchShape_of_compile {a : Span} {args : List Form} {c : Code} (h : compileBranch labels args = .ok c) :
    InstructionShape labels (.ident a (utf8 "branch") :: args) c := by
  unfold compileBranch at h
  split at h
  · next hn =>
    obtain ⟨offset, ho, h⟩ := bind_eq_ok h
    cases h
    obtain ⟨b, d, e, rfl⟩ := taggedName?_eq_some hn
    exact .branch (lookup_of_resolve ho)
  · cases h

theorem gotoShape_of_compile {a : Span} {args : List Form} {c : Code} (h : compileGoto labels args = .ok c) :
    InstructionShape labels (.ident a (utf8 "goto") :: args) c := by
  unfold compileGoto at h
  split at h
  · next hn =>
    obtain ⟨offset, ho, h⟩ := bind_eq_ok h
    cases h
    obtain ⟨b, d, e, rfl⟩ := taggedName?_eq_some hn
    exact .goto (lookup_of_resolve ho)
  split at h
  · next hn =>
    cases h
    obtain ⟨b, d, e, rfl⟩ := taggedName?_eq_some hn
    exact .gotoReg
  · cases h

theorem transferShape_of_compile {make : Bytes → Code} {bad : AssemblyCause} {args : List Form} {c : Code}
    (h : compileTransfer make bad args = .ok c) : ∃ b name, args = [.ident b name] ∧ c = make name := by
  unfold compileTransfer at h
  split at h
  · next name hn =>
    cases h
    obtain ⟨b, rfl⟩ := nameArg?_eq_some hn
    exact ⟨b, name, rfl, rfl⟩
  · cases h

/-- **Whatever compiles has the shape of an instruction.** -/
theorem instructionShape_of_compile {xs : List Form} {c : Code} (h : compile labels xs = .ok c) :
    InstructionShape labels xs c := by
  unfold compile at h
  split at h
  · cases h
  · next tag htag =>
    obtain ⟨a, args, rfl⟩ : ∃ a args, xs = .ident a tag :: args := by
      unfold Form.head? at htag
      split at htag
      · exact ⟨_, _, by rw [Option.some.inj htag]⟩
      · cases htag
    dsimp only [List.tail_cons] at h
    split at h
    · next ht =>
      obtain rfl := eq_of_beq ht
      exact assignShape_of_compile h
    split at h
    · next ht =>
      obtain rfl := eq_of_beq ht
      obtain ⟨call, rfl, hc⟩ := actionShape_of_compile h
      exact .test hc
    split at h
    · next ht =>
      obtain rfl := eq_of_beq ht
      exact branchShape_of_compile h
    split at h
    · next ht =>
      obtain rfl := eq_of_beq ht
      exact gotoShape_of_compile h
    split at h
    · next ht =>
      obtain rfl := eq_of_beq ht
      obtain ⟨b, name, rfl, rfl⟩ := transferShape_of_compile h
      exact .save
    split at h
    · next ht =>
      obtain rfl := eq_of_beq ht
      obtain ⟨b, name, rfl, rfl⟩ := transferShape_of_compile h
      exact .restore
    split at h
    · next ht =>
      obtain rfl := eq_of_beq ht
      obtain ⟨call, rfl, hc⟩ := actionShape_of_compile h
      exact .perform hc
    · cases h

theorem resolve_of_lookup {name : Bytes} {offset : Nat} (h : labels.lookup name = some offset) :
    resolve labels name = .ok offset := by
  rw [resolve, h]

theorem compileOperand_of_shape {x : Form} {o : Operand} (h : OperandShape labels x o) :
    compileOperand labels x = .ok o := by
  cases h with
  | const => rfl
  | @label a b c name offset h =>
    show (resolve labels name >>= fun offset => .ok (Operand.label name offset)) = _
    rw [resolve_of_lookup h]
    rfl
  | reg => rfl

theorem compileOperands_of_shapes {xs : List Form} {os : List Operand}
    (h : List.Forall₂ (OperandShape labels) xs os)
    (op : Bytes) (index : Nat) : compileOperands labels op index xs = .ok os := by
  induction h generalizing index with
  | nil => rfl
  | @cons x o xs os hx _ ih =>
    rw [compileOperands, compileOperand_of_shape hx]
    show (compileOperands labels op (index + 1) xs >>= fun os => .ok (o :: os)) = _
    rw [ih]
    rfl

theorem compileCall_of_shape {xs : List Form} {c : Call} (h : CallShape labels xs c) :
    ∃ x args, operation? xs = some (x, args) ∧ compileCall labels x args = .ok c := by
  obtain @⟨a, b, d, name, args, os, h⟩ := h
  refine ⟨.ident d name, args, rfl, ?_⟩
  show (compileOperands labels name 0 args >>= fun os => .ok (Call.mk name os)) = _
  rw [compileOperands_of_shapes h]
  rfl

theorem compileAction_of_shape {xs : List Form} {c : Call} (h : CallShape labels xs c) (make : Call → Code)
    (bad : AssemblyCause) : compileAction labels make bad xs = .ok (make c) := by
  obtain ⟨x, args, hx, hc⟩ := compileCall_of_shape h
  rw [compileAction, hx]
  show (compileCall labels x args >>= fun c => .ok (make c)) = _
  rw [hc]
  rfl

/-- What is assigned from an operation starts with the operation, so there is something to assign. -/
theorem compileAssign_of_shape {b : Span} {name : Bytes} {xs : List Form} {c : Call} (h : CallShape labels xs c) :
    compileAssign labels (.ident b name :: xs) = .ok (.assign name (some (.call c))) := by
  obtain ⟨x, args, hx, hc⟩ := compileCall_of_shape h
  cases h with
  | mk =>
    rw [compileAssign, hx]
    show (compileCall labels x args >>= fun c => .ok (Code.assign name (some (.call c)))) = _
    rw [hc]
    rfl

/-- Whatever has the shape of an instruction compiles. -/
theorem compile_of_instructionShape {xs : List Form} {c : Code} (h : InstructionShape labels xs c) :
    compile labels xs = .ok c := by
  cases h with
  | @assign a b name x o h =>
    have hno : operation? [x] = none := by cases h <;> rfl
    show compileAssign labels [.ident b name, x] = _
    rw [compileAssign, hno]
    show (compileOperand labels x >>= fun o => .ok (Code.assign name (some (.operand o)))) = _
    rw [compileOperand_of_shape h]
    rfl
  | compute h => exact compileAssign_of_shape h
  | test h => exact compileAction_of_shape h .test .badTest
  | @branch a b c d name offset h =>
    show (resolve labels name >>= fun offset => .ok (Code.branch name offset)) = _
    rw [resolve_of_lookup h]
    rfl
  | @goto a b c d name offset h =>
    show (resolve labels name >>= fun offset => .ok (Code.goto name offset)) = _
    rw [resolve_of_lookup h]
    rfl
  | gotoReg => rfl
  | save => rfl
  | restore => rfl
  | perform h => exact compileAction_of_shape h .perform .badPerform

/-- **An instruction compiles exactly if it has a shape**, and to the code that goes with the shape. -/
theorem compile_eq_ok_iff {xs : List Form} {c : Code} : compile labels xs = .ok c ↔ InstructionShape labels xs c :=
  ⟨instructionShape_of_compile, compile_of_instructionShape⟩

end Compile

/-! ## The instructions of an assembled program -/

variable {serial : Nat} {items : List Form} {p : Program}

/-- Every instruction of an assembled program is compiled from the instruction of the controller with
its number. -/
theorem Assembled.instruction (hp : Assembled serial items p) {k : Nat} {ins : Instruction}
    (h : p.instructions[k]? = some ins) :
    ∃ parts c, (elements items)[k]? = some (ins.source, parts) ∧ ins.code = some c ∧
      InstructionShape p.labels parts c := by
  have hk : k < p.size := (Array.getElem?_eq_some_iff.mp h).1
  have hlen : k < (elements items).length := by
    rw [length_elements, ← hp.size_eq]
    exact hk
  obtain ⟨⟨x, parts⟩, hx⟩ : ∃ e, (elements items)[k]? = some e := ⟨_, List.getElem?_eq_getElem hlen⟩
  obtain ⟨c, hc, hcode⟩ := hp.code k x parts hx
  obtain rfl := Option.some.inj (h.symm.trans hc)
  exact ⟨parts, c, hx, rfl, instructionShape_of_compile hcode⟩

theorem labelsFrom_le : ∀ {items : List Form} {count : Nat} {l : Bytes × Nat}, l ∈ labelsFrom count items →
    l.2 ≤ count + items.countP isInstruction
  | [], _, _, h => by simp [labelsFrom] at h
  | x :: rest, count, l, h => by
    rw [List.countP_cons]
    cases x with
    | ident span name =>
      rw [labelsFrom] at h
      rcases List.mem_cons.mp h with rfl | h
      · show count ≤ _
        omega
      · have := labelsFrom_le h
        omega
    | list span parts =>
      rw [labelsFrom] at h
      have := labelsFrom_le h
      simp only [isInstruction, if_true]
      omega
    | int | float | string | missing =>
      simp only [labelsFrom] at h
      have := labelsFrom_le h
      omega

theorem OperandShape.destination {labels : List (Bytes × Nat)} {x : Form} {o : Operand}
    (h : OperandShape labels x o)
    {offset : Nat} (ho : o.destination? = some offset) : ∃ name, labels.lookup name = some offset := by
  cases h with
  | const => cases ho
  | label h =>
    cases ho
    exact ⟨_, h⟩
  | reg => cases ho

theorem CallShape.operand {labels : List (Bytes × Nat)} {xs : List Form} {c : Call} (h : CallShape labels xs c)
    {o : Operand} (ho : o ∈ c.args) : ∃ x, OperandShape labels x o := by
  obtain ⟨h⟩ := h
  induction h with
  | nil => cases ho
  | cons hx _ ih =>
    rcases List.mem_cons.mp ho with rfl | ho
    · exact ⟨_, hx⟩
    · exact ih ho

theorem InstructionShape.operand {labels : List (Bytes × Nat)} {xs : List Form} {c : Code}
    (h : InstructionShape labels xs c) {o : Operand} (ho : o ∈ c.operands) : ∃ x, OperandShape labels x o := by
  cases h with
  | assign h =>
    obtain rfl := List.mem_singleton.mp ho
    exact ⟨_, h⟩
  | compute h => exact h.operand ho
  | test h => exact h.operand ho
  | perform h => exact h.operand ho
  | branch | goto | gotoReg | save | restore => cases ho

/-- Whatever an instruction can jump to or hand on is the offset of a label. -/
theorem InstructionShape.destination {labels : List (Bytes × Nat)} {xs : List Form} {c : Code}
    (h : InstructionShape labels xs c) {offset : Nat} (ho : offset ∈ c.destinations) :
    ∃ name, labels.lookup name = some offset := by
  rcases List.mem_append.mp ho with ho | ho
  · rw [Option.mem_toList] at ho
    cases h with
    | branch h =>
      cases ho
      exact ⟨_, h⟩
    | goto h =>
      cases ho
      exact ⟨_, h⟩
    | assign | compute | test | gotoReg | save | restore | perform => cases ho
  · obtain ⟨o, hmem, ho⟩ := List.mem_filterMap.mp ho
    obtain ⟨x, hx⟩ := h.operand hmem
    exact hx.destination ho

/-- **Labels and destinations lie inside the program.** -/
theorem Assembled.destinations_le (hp : Assembled serial items p) :
    (∀ l ∈ p.labels, l.2 ≤ p.size) ∧
      ∀ (k : Nat) (ins : Instruction) (c : Code), p.instructions[k]? = some ins → ins.code = some c →
        ∀ o ∈ c.destinations, o ≤ p.size := by
  have hlabels : ∀ l ∈ p.labels, l.2 ≤ p.size := by
    intro l hl
    rw [hp.labels_eq] at hl
    have := labelsFrom_le hl
    rwa [Nat.zero_add, ← hp.size_eq] at this
  refine ⟨hlabels, fun k ins c hins hc o ho => ?_⟩
  obtain ⟨parts, c', -, hc', hshape⟩ := hp.instruction hins
  obtain rfl := Option.some.inj (hc.symm.trans hc')
  obtain ⟨name, hname⟩ := hshape.destination ho
  obtain ⟨before, after, hsplit, -⟩ := List.lookup_eq_some_iff.mp hname
  exact hlabels (name, o) (hsplit ▸ List.mem_append_right before List.mem_cons_self)

end Interpreter

end RegisterMachine
