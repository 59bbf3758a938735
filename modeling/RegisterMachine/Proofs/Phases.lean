import RegisterMachine.Machine.Execution
import RegisterMachine.Proofs.Touches

/-!
# The two phases of an instruction

An instruction first does everything that can fail, which includes the call of an operation if it makes one.  Then
it writes, and that cannot fail.  What holds of instructions of every kind is derived from the two phases, without
another look at the kinds.

* `Code.registers`: the registers that an instruction refers to.
* `Code.need`: what an instruction needs, as far as registers and stack tell: a value, or the value of a call.  It
  depends on the registers that are referred to only (`Code.need_congr`), does not change when more registers are
  known (`Code.need_mono`), and is missing for a few reasons only (`Code.need_error`).
* `prepare`, `prepared`: the first phase, and the five ways in which it can end.
* `Code.touches`, `Code.next`, `commit`: the second phase, a few touches and a jump.
* `execute_eq`: an instruction is one phase after the other.
* `execute_paired`: an instruction in two worlds in which it sees the same.
-/

namespace RegisterMachine

/-! ## What an instruction refers to -/

/-- The register of an operand. -/
def Operand.register? : Operand → Option Bytes
  | reg name => some name
  | _ => none

/-- The operands of an expression. -/
def Expr.operands : Expr → List Operand
  | operand o => [o]
  | call c => c.args

namespace Code

/-- The operands of an instruction, from left to right. -/
def operands : Code → List Operand
  | assign _ (some x) => x.operands
  | test c | perform c => c.args
  | _ => []

/-- The call that is written in an instruction. -/
def call? : Code → Option Call
  | assign _ (some (.call c)) | test c | perform c => some c
  | _ => none

/-- The register that an instruction is about, apart from its operands. -/
def subject? : Code → Option Bytes
  | assign name _ | gotoReg name | save name | restore name => some name
  | _ => none

/-- The registers that an instruction refers to, in the order in which they are written. -/
def registers (c : Code) : List Bytes := c.subject?.toList ++ c.operands.filterMap Operand.register?

theorem mem_registers_of_subject {c : Code} {name : Bytes} (h : c.subject? = some name) : name ∈ c.registers :=
  List.mem_append_left _ (Option.mem_toList.mpr h)

theorem mem_registers_of_operand {c : Code} {o : Operand} {name : Bytes} (ho : o ∈ c.operands)
    (h : o.register? = some name) : name ∈ c.registers :=
  List.mem_append_right _ (List.mem_filterMap.mpr ⟨o, ho, h⟩)

end Code

/-! ## Registers and operands -/

section Reading

variable {program : Program} {read read' : Bytes → Option Value} {name : Bytes} {v : Value} {t : Trap}

theorem registerValue_eq_ok_iff : registerValue read name = .ok v ↔ read name = some v := by
  unfold registerValue
  cases read name <;> simp

theorem registerValue_eq_error_iff :
    registerValue read name = .error t ↔ read name = none ∧ t = .unknownRegister name := by
  unfold registerValue
  cases read name <;> simp [eq_comm]

theorem registerValue_congr (h : read name = read' name) : registerValue read name = registerValue read' name := by
  unfold registerValue
  rw [h]

theorem operandValue_congr {o : Operand} (h : ∀ name, o.register? = some name → read name = read' name) :
    operandValue program read o = operandValue program read' o := by
  cases o with
  | const => rfl
  | label => rfl
  | reg name => exact registerValue_congr (h name rfl)

/-- Operands depend on the registers that they mention only. -/
theorem operandValues_congr {os : List Operand}
    (h : ∀ name ∈ os.filterMap Operand.register?, read name = read' name) (op : Bytes) (index : Nat) :
    operandValues program read op index os = operandValues program read' op index os := by
  induction os generalizing index with
  | nil => rfl
  | cons o os ih =>
    have ho : ∀ name, o.register? = some name → read name = read' name := by
      intro name hreg
      exact h name (List.mem_filterMap.mpr ⟨o, List.mem_cons_self, hreg⟩)
    have hos : ∀ name ∈ os.filterMap Operand.register?, read name = read' name := by
      intro name hmem
      obtain ⟨o', ho', hreg⟩ := List.mem_filterMap.mp hmem
      exact h name (List.mem_filterMap.mpr ⟨o', List.mem_cons_of_mem _ ho', hreg⟩)
    rw [operandValues, operandValues, operandValue_congr ho, ih hos]

theorem operandValue_error {o : Operand} (h : operandValue program read o = .error t) :
    ∃ name, o.register? = some name ∧ read name = none ∧ t = .unknownRegister name := by
  cases o with
  | const | label => cases h
  | reg name => exact ⟨name, rfl, registerValue_eq_error_iff.mp h⟩

/-- Operands have no values only if they mention a register that does not exist. -/
theorem operandValues_error {os : List Operand} {op : Bytes} {index : Nat}
    (h : operandValues program read op index os = .error t) :
    ∃ name ∈ os.filterMap Operand.register?, read name = none ∧
      ∃ i, t = .operand op i (.unknownRegister name) := by
  induction os generalizing index with
  | nil => cases h
  | cons o os ih =>
    rw [operandValues] at h
    split at h
    · next e he =>
      cases h
      obtain ⟨name, hreg, hnone, rfl⟩ := operandValue_error he
      exact ⟨name, List.mem_filterMap.mpr ⟨o, List.mem_cons_self, hreg⟩, hnone, index, rfl⟩
    · split at h
      · next e he =>
        cases h
        obtain ⟨name, hmem, hrest⟩ := ih he
        obtain ⟨o', ho', hreg⟩ := List.mem_filterMap.mp hmem
        exact ⟨name, List.mem_filterMap.mpr ⟨o', List.mem_cons_of_mem _ ho', hreg⟩, hrest⟩
      · cases h

variable (hmore : ∀ name v, read name = some v → read' name = some v)
include hmore

theorem registerValue_mono (h : registerValue read name = .ok v) : registerValue read' name = .ok v :=
  registerValue_eq_ok_iff.mpr (hmore name v (registerValue_eq_ok_iff.mp h))

theorem operandValue_mono {o : Operand} (h : operandValue program read o = .ok v) :
    operandValue program read' o = .ok v := by
  cases o with
  | const | label => exact h
  | reg name => exact registerValue_mono hmore h

/-- What operands are does not change when more registers are known. -/
theorem operandValues_mono {os : List Operand} {op : Bytes} {index : Nat} {vs : List Value}
    (h : operandValues program read op index os = .ok vs) : operandValues program read' op index os = .ok vs := by
  induction os generalizing index vs with
  | nil => exact h
  | cons o os ih =>
    rw [operandValues] at h ⊢
    split at h
    · cases h
    · next v hv =>
      rw [operandValue_mono hmore hv]
      split at h
      · cases h
      · next hvs =>
        dsimp only
        rw [ih hvs]
        exact h

end Reading

theorem map_eq_ok_iff {α β : Type} {f : α → β} {r : Except Trap α} {b : β} :
    r.map f = .ok b ↔ ∃ a, r = .ok a ∧ f a = b := by
  cases r <;> simp [Except.map]

theorem map_eq_error_iff {α β : Type} {f : α → β} {r : Except Trap α} {e : Trap} :
    r.map f = .error e ↔ r = .error e := by
  cases r <;> simp [Except.map]

/-! ## What an instruction needs -/

/-- What an instruction needs before it writes: a value, or the value that a call gives. -/
inductive Need where
  | value (v : Value)
  | call (c : Call)

/-- The value is a view of the program with this layout. -/
def Value.isViewOf (l : Layout) : Value → Bool
  | .view v => v.ofProgram l
  | _ => false

namespace Code

section Need

variable (program : Program) (read : Bytes → Option Value) (top : Option Value)

/-- The value of the register that an instruction is about, which must exist. -/
def subjectValue (code : Code) : Except Trap Value :=
  match code.subject? with
  | none => .ok .nil
  | some name => registerValue read name

/-- What an instruction needs once the register that it is about was found to hold `u`. -/
def demand (u : Value) : Code → Except Trap Need
  | .assign _ none => .error .noValue
  | .assign _ (some (.operand o)) => (operandValue program read o).map .value
  | .assign _ (some (.call c)) => .ok (.call c)
  | .test c => .ok (.call c)
  | .branch .. => (registerValue read flagName).map .value
  | .goto .. => .ok (.value .nil)
  | .gotoReg name => if u.isViewOf program.layout then .ok (.value u) else .error (.badJump name u)
  | .save _ => .ok (.value u)
  | .restore name => (top.map fun v => .ok (.value v)).getD (.error (.stackUnderflow name))
  | .perform c => .ok (.call c)

/-- What an instruction needs, from the registers and the value on top of the stack. -/
def need (code : Code) : Except Trap Need :=
  match code.subjectValue read with
  | .error e => .error e
  | .ok u => code.demand program read top u

end Need

variable {program : Program} {read read' : Bytes → Option Value} {top top' : Option Value} {code : Code} {n : Need}

theorem need_eq_ok_iff : code.need program read top = .ok n ↔
    ∃ u, code.subjectValue read = .ok u ∧ code.demand program read top u = .ok n := by
  unfold need
  cases code.subjectValue read <;> simp

theorem need_eq_error_iff {t : Trap} : code.need program read top = .error t ↔
    code.subjectValue read = .error t ∨
      ∃ u, code.subjectValue read = .ok u ∧ code.demand program read top u = .error t := by
  unfold need
  cases code.subjectValue read <;> simp

/-- The register that an instruction is about exists, if the instruction gets to what it needs. -/
theorem read_of_need (h : code.need program read top = .ok n) {name : Bytes} (hname : code.subject? = some name) :
    ∃ u, read name = some u := by
  obtain ⟨u, hu, -⟩ := need_eq_ok_iff.mp h
  rw [subjectValue, hname] at hu
  exact ⟨u, registerValue_eq_ok_iff.mp hu⟩

/-- An instruction depends on the registers that it refers to, on `flag`, and if it restores, on the top of the
stack. -/
theorem need_congr (hread : ∀ name ∈ flagName :: code.registers, read name = read' name)
    (htop : ∀ name, code = .restore name → top = top') :
    code.need program read top = code.need program read' top' := by
  obtain ⟨hflag, hregisters⟩ := List.forall_mem_cons.mp hread
  have hsubject : code.subjectValue read = code.subjectValue read' := by
    unfold subjectValue
    cases h : code.subject? with
    | none => rfl
    | some name => exact registerValue_congr (hregisters name (mem_registers_of_subject h))
  have hdemand (u : Value) : code.demand program read top u = code.demand program read' top' u := by
    cases code with
    | assign target x =>
      rcases x with _ | o | c
      · rfl
      · have ho : operandValue program read o = operandValue program read' o :=
          operandValue_congr fun name hname =>
            hregisters name (mem_registers_of_operand (List.mem_singleton.mpr rfl) hname)
        rw [demand, demand, ho]
      · rfl
    | branch => rw [demand, demand, registerValue_congr hflag]
    | restore name => rw [demand, demand, htop name rfl]
    | test | goto | gotoReg | save | perform => rfl
  rw [need, need, hsubject]
  cases code.subjectValue read' with
  | error e => rfl
  | ok u => exact hdemand u

/-- What an instruction needs does not change when more registers are known. -/
theorem need_mono (hmore : ∀ name v, read name = some v → read' name = some v)
    (htop : ∀ v, top = some v → top' = some v) (h : code.need program read top = .ok n) :
    code.need program read' top' = .ok n := by
  obtain ⟨u, hu, hn⟩ := need_eq_ok_iff.mp h
  refine need_eq_ok_iff.mpr ⟨u, ?_, ?_⟩
  · unfold subjectValue at hu ⊢
    cases hs : code.subject? with
    | none =>
      rw [hs] at hu
      exact hu
    | some name =>
      rw [hs] at hu
      exact registerValue_mono hmore hu
  · cases code with
    | assign target x =>
      rcases x with _ | o | c
      · exact hn
      · obtain ⟨v, hv, hn⟩ := map_eq_ok_iff.mp hn
        exact map_eq_ok_iff.mpr ⟨v, operandValue_mono hmore hv, hn⟩
      · exact hn
    | branch label offset =>
      obtain ⟨v, hv, hn⟩ := map_eq_ok_iff.mp hn
      exact map_eq_ok_iff.mpr ⟨v, registerValue_mono hmore hv, hn⟩
    | restore name =>
      cases top with
      | none => cases hn
      | some v =>
        rw [htop v rfl]
        exact hn
    | test | goto | gotoReg | save | perform => exact hn

/-- The reasons for which an instruction fails before it calls an operation. -/
theorem need_error {t : Trap} (hflag : ∃ v, read flagName = some v) (h : code.need program read top = .error t) :
    (∃ name ∈ code.registers, read name = none ∧ t = .unknownRegister name) ∨
      t = .noValue ∨ (∃ name, t = .stackUnderflow name) ∨ ∃ name v, t = .badJump name v := by
  rcases need_eq_error_iff.mp h with h | ⟨u, -, h⟩
  · unfold subjectValue at h
    cases hs : code.subject? with
    | none =>
      rw [hs] at h
      cases h
    | some name =>
      rw [hs] at h
      exact .inl ⟨name, mem_registers_of_subject hs, registerValue_eq_error_iff.mp h⟩
  · cases code with
    | assign target x =>
      rcases x with _ | o | c
      · cases h
        exact .inr (.inl rfl)
      · obtain ⟨name, hname, hnone⟩ := operandValue_error (map_eq_error_iff.mp h)
        exact .inl ⟨name, mem_registers_of_operand (List.mem_singleton.mpr rfl) hname, hnone⟩
      · cases h
    | branch label offset =>
      obtain ⟨v, hv⟩ := hflag
      cases (registerValue_eq_ok_iff.mpr hv).symm.trans (map_eq_error_iff.mp h)
    | gotoReg name =>
      refine .inr (.inr (.inr ⟨name, u, ?_⟩))
      rw [demand] at h
      split at h
      · cases h
      · cases h
        rfl
    | restore name =>
      cases top with
      | none =>
        cases h
        exact .inr (.inr (.inl ⟨name, rfl⟩))
      | some v => cases h
    | test | goto | save | perform => cases h

/-- An instruction asks for the call only that is written in it. -/
theorem call_of_need {c : Call} (h : code.need program read top = .ok (.call c)) : code.call? = some c := by
  obtain ⟨u, -, hn⟩ := need_eq_ok_iff.mp h
  cases code with
  | assign target x =>
    rcases x with _ | o | c'
    · cases hn
    · obtain ⟨v, -, hn⟩ := map_eq_ok_iff.mp hn
      cases hn
    · cases hn
      rfl
  | test | perform =>
    cases hn
    rfl
  | branch label offset =>
    obtain ⟨v, -, hn⟩ := map_eq_ok_iff.mp hn
    cases hn
  | gotoReg name =>
    rw [demand] at hn
    split at hn <;> cases hn
  | restore name => cases top <;> cases hn
  | goto | save => cases hn

/-- The operands of a call that an instruction makes are the operands of the instruction. -/
theorem operands_of_need {c : Call} (h : code.need program read top = .ok (.call c)) : c.args = code.operands := by
  have hcall := call_of_need h
  unfold call? at hcall
  split at hcall <;> cases hcall <;> rfl

end Code

/-! ## The second phase -/

namespace Code

/-- The touches that an instruction makes by itself, once it has its value. -/
def touches (v : Value) : Code → List Touch
  | .assign target _ => [.write target v]
  | .test _ => [.write flagName v]
  | .save _ => [.push v]
  | .restore name => [.pop, .write name v]
  | _ => []

theorem byInstruction_touches (code : Code) (v : Value) : ∀ t ∈ code.touches v, t.ByInstruction := by
  cases code <;> simp [touches, Touch.ByInstruction]

/-- Apart from `flag`, an instruction writes to the register only that it is about. -/
theorem target_of_write {code : Code} {v u : Value} {name : Bytes} (h : .write name u ∈ code.touches v) :
    name = flagName ∨ code.subject? = some name := by
  cases code <;> simp_all [touches, subject?]

end Code

/-- Where an instruction leads: behind itself, to an offset, or to a view. -/
inductive Next where
  | behind
  | offset (i : Nat)
  | view (u : View)

/-- The view that an instruction at the start of `here` leads to. -/
def Next.from (program : Program) (here : View) : Next → View
  | behind => here.tail
  | offset i => program.view i
  | view u => u

/-- Where an instruction leads, once it has its value. -/
def Code.next (v : Value) : Code → Next
  | .branch _ offset => if v.truthy then .offset offset else .behind
  | .goto _ offset => .offset offset
  | .gotoReg _ =>
    match v with
    | .view u => .view u
    | _ => .behind
  | _ => .behind

theorem tail_layout (v : View) : v.tail.layout = v.layout := by
  unfold View.tail
  split <;> rfl

/-- An instruction leads to a view of its own program. -/
theorem Code.next_layout {program : Program} {read : Bytes → Option Value} {top : Option Value}
    {code : Code} {n : Need}
    {v : Value} {here : View} (h : code.need program read top = .ok n) (hv : ∀ u, n = .value u → v = u)
    (hhere : here.layout = some program.layout) :
    ((code.next v).from program here).layout = some program.layout := by
  have htail : here.tail.layout = some program.layout := (tail_layout here).trans hhere
  cases code with
  | branch label offset =>
    rw [next]
    split
    · rfl
    · exact htail
  | goto label offset => rfl
  | gotoReg name =>
    obtain ⟨u, -, hn⟩ := need_eq_ok_iff.mp h
    rw [demand] at hn
    split at hn
    · next hown =>
      cases hn
      obtain rfl := hv u rfl
      cases v with
      | view w => exact beq_iff_eq.mp hown
      | _ => cases hown
    · cases hn
  | assign | test | save | restore | perform => exact htail

/-! ## One phase after the other -/

/-- The value on top of the stack. -/
def Stack.top? (s : Stack) : Option Value := s.pop?.map (·.1)

/-- What an instruction needs in a state. -/
def State.need (program : Program) (code : Code) (s : State) : Except Trap Need :=
  code.need program s.read? s.stack.top?

section Phases

variable (program : Program) (find : Bytes → Option Operation)

/-- The first phase of an instruction: the value that the second one needs. -/
def prepare (code : Code) (w : World) : Except Trap Value × World :=
  match w.state.need program code with
  | .error e => (.error e, w)
  | .ok (.value v) => (.ok v, w)
  | .ok (.call c) => call program find c w

/-- The second phase of an instruction: what it does with its value. -/
def commit (here : View) (code : Code) (v : Value) (w : World) : World :=
  let touched := w.state.touched program.entry (code.touches v)
  { w with state := { touched with pc := .view ((code.next v).from program here) } }

/-- The second phase neither raises nor lowers the flag that asks to halt, and counts nothing. -/
theorem commit_keeps (here : View) (code : Code) (v : Value) (w : World) :
    (commit program here code v w).state.halting = w.state.halting ∧
      (commit program here code v w).state.executed = w.state.executed := by
  refine State.touched_keeps (I := fun s => s.halting = w.state.halting ∧ s.executed = w.state.executed)
    (P := Touch.ByInstruction) (fun s t ht hs => ?_) (code.byInstruction_touches v) ⟨rfl, rfl⟩
  obtain ⟨hhalting, hexecuted⟩ := Touch.keeps_of_byInstruction ht program.entry s
  exact ⟨hhalting.trans hs.1, hexecuted.trans hs.2⟩

/-- The ways in which the first phase ends. -/
inductive Prepared (code : Code) (w : World) : Except Trap Value × World → Prop
  | trapped {e : Trap} (h : w.state.need program code = .error e) : Prepared code w (.error e, w)
  | given {v : Value} (h : w.state.need program code = .ok (.value v)) : Prepared code w (.ok v, w)
  | notFound {c : Call} (h : w.state.need program code = .ok (.call c)) (hop : find c.name = none) :
    Prepared code w (.error (.operationNotFound c.name), w)
  | operand {c : Call} {op : Operation} {e : Trap} (h : w.state.need program code = .ok (.call c))
    (hop : find c.name = some op) (hargs : operandValues program w.state.read? c.name 0 c.args = .error e) :
    Prepared code w (.error e, w)
  | called {c : Call} {op : Operation} {args : List Value} (h : w.state.need program code = .ok (.call c))
    (hop : find c.name = some op) (hargs : operandValues program w.state.read? c.name 0 c.args = .ok args) :
    Prepared code w ((op args w).1.result c.name, (op args w).2)

/-- The operation that an instruction calls, with its arguments. -/
def invocation? (code : Code) (s : State) : Option (Operation × List Value) :=
  match s.need program code with
  | .ok (.call c) => (find c.name).bind fun op =>
    (operandValues program s.read? c.name 0 c.args).toOption.map fun args => (op, args)
  | _ => none

/-- The world after the call of an operation, if there is one. -/
def afterCall (w : World) : Option (Operation × List Value) → World
  | none => w
  | some (op, args) => (op args w).2

theorem prepared (code : Code) (w : World) : Prepared program find code w (prepare program find code w) := by
  unfold prepare
  split
  · next h => exact .trapped h
  · next h => exact .given h
  · next c h =>
    unfold call
    split
    · next hop => exact .notFound h hop
    · next op hop =>
      split
      · next hargs => exact .operand h hop hargs
      · next hargs => exact .called h hop hargs

variable {program find} {code : Code} {w w' : World}

/-- There is only one way in which the first phase ends. -/
theorem Prepared.eq {r : Except Trap Value × World} (h : Prepared program find code w r) :
    prepare program find code w = r := by
  unfold prepare
  cases h with
  | trapped h => rw [h]
  | given h => rw [h]
  | notFound h hop => simp only [h, call, hop]
  | operand h hop hargs => simp only [h, call, hop, hargs]
  | called h hop hargs => simp only [h, call, hop, hargs]

/-- A first phase that succeeds got what it needs, and if that was a value, it is this value. -/
theorem need_of_prepare {v : Value} (h : prepare program find code w = (.ok v, w')) :
    ∃ n, w.state.need program code = .ok n ∧ ∀ u, n = .value u → v = u := by
  have hprepared := prepared program find code w
  rw [h] at hprepared
  generalize hr : (Except.ok v, w') = r at hprepared
  cases hprepared with
  | given hneed =>
    cases hr
    exact ⟨_, hneed, fun u hu => Need.value.inj hu⟩
  | called hneed => exact ⟨_, hneed, fun u hu => by cases hu⟩
  | trapped | notFound | operand => cases hr

/-- A first phase that succeeds lets the instruction lead to a view of its own program. -/
theorem next_of_prepare {v : Value} {here : View} (h : prepare program find code w = (.ok v, w'))
    (hhere : here.layout = some program.layout) :
    ((code.next v).from program here).layout = some program.layout := by
  obtain ⟨n, hneed, hvalue⟩ := need_of_prepare h
  exact Code.next_layout hneed hvalue hhere

/-- **In the first phase only an operation changes the world.** -/
theorem prepare_world (code : Code) (w : World) :
    (prepare program find code w).2 = afterCall w (invocation? program find code w.state) := by
  have h := prepared program find code w
  generalize prepare program find code w = r at h
  unfold invocation?
  cases h with
  | trapped h => rw [h]; rfl
  | given h => rw [h]; rfl
  | notFound h hop => simp only [h, hop, Option.bind_none, afterCall]
  | operand h hop hargs => simp only [h, hop, hargs, Option.bind_some]; rfl
  | called h hop hargs => simp only [h, hop, hargs, Option.bind_some]; rfl

theorem find_of_invocation {op : Operation} {args : List Value}
    (h : invocation? program find code w.state = some (op, args)) : ∃ name, find name = some op := by
  unfold invocation? at h
  split at h
  · next c _ =>
    obtain ⟨op', hop, hargs⟩ := Option.bind_eq_some_iff.mp h
    obtain ⟨args', -, heq⟩ := Option.map_eq_some_iff.mp hargs
    cases heq
    exact ⟨c.name, hop⟩
  · cases h

/-- **An instruction is one phase after the other.** -/
theorem execute_eq (here : View) (code : Code) (w : World) :
    execute program find here (some code) w =
      andThen (prepare program find code w) (commit program here code) := by
  cases code with
  | assign target x =>
    unfold prepare State.need Code.need Code.subjectValue
    dsimp only [execute, Code.subject?]
    cases registerValue w.state.read? target with
    | error e => rfl
    | ok u =>
      rcases x with _ | o | c
      · rfl
      · dsimp only [Code.demand, evaluate]
        cases operandValue program w.state.read? o <;> rfl
      · rfl
  | branch label offset =>
    show (Except.ok (), w.jump (if w.state.flag.truthy then program.view offset else here.tail)) =
      (Except.ok (), w.jump ((if w.state.flag.truthy then Next.offset offset else .behind).from program here))
    split <;> rfl
  | test | perform | goto => rfl
  | gotoReg name =>
    unfold prepare State.need Code.need Code.subjectValue
    dsimp only [execute, Code.subject?]
    cases registerValue w.state.read? name with
    | error e => rfl
    | ok v =>
      dsimp only [Code.demand]
      cases v with
      | view v =>
        have hview : (Value.view v).isViewOf program.layout = v.ofProgram program.layout := rfl
        by_cases hown : v.ofProgram program.layout = true
        · rw [if_pos (hview.trans hown)]
          exact if_pos hown
        · rw [if_neg (hview ▸ hown)]
          exact if_neg hown
      | _ => rfl
  | save name =>
    unfold prepare State.need Code.need Code.subjectValue
    dsimp only [execute, Code.subject?]
    cases registerValue w.state.read? name <;> rfl
  | restore name =>
    unfold prepare State.need Code.need Code.subjectValue Stack.top?
    dsimp only [execute, Code.subject?]
    cases registerValue w.state.read? name with
    | error e => rfl
    | ok u =>
      dsimp only [Code.demand]
      cases hpop : w.state.stack.pop? with
      | none => rfl
      | some p =>
        have hstack : (w.state.stack.pop?.map (·.2)).getD w.state.stack = p.2 := by
          rw [hpop]
          rfl
        simp only [Option.map_some, Option.getD_some, andThen, commit, Code.touches, Code.next, State.touched,
          List.foldl, Touch.apply, hstack]
        rfl

theorem andThen_ok {r : Except Trap Value × World} {rest : Value → World → World}
    (h : andThen r rest = (.ok (), w')) : ∃ v w, r = (.ok v, w) ∧ w' = rest v w := by
  unfold andThen at h
  split at h
  · cases h
    exact ⟨_, _, rfl, rfl⟩
  · cases h

/-- Only the value can fail, not what is done with it. -/
theorem andThen_error {r : Except Trap Value × World} {rest : Value → World → World} {e : Trap}
    (h : andThen r rest = (.error e, w')) : r = (.error e, w') := by
  unfold andThen at h
  split at h
  · cases h
  · cases h
    rfl

theorem execute_ok {here : View} (h : execute program find here (some code) w = (.ok (), w')) :
    ∃ v w₁, prepare program find code w = (.ok v, w₁) ∧ w' = commit program here code v w₁ :=
  andThen_ok ((execute_eq here code w).symm.trans h)

theorem execute_error {here : View} {e : Trap} (h : execute program find here (some code) w = (.error e, w')) :
    prepare program find code w = (.error e, w') :=
  andThen_error ((execute_eq here code w).symm.trans h)

/-! ## Two worlds -/

/-- Two ends of the same kind: failures for the same reason, in worlds that are related by `E`, or successes in
worlds that are related by `R`. -/
inductive Paired {α : Type} (E R : World → World → Prop) : Except Trap α × World → Except Trap α × World → Prop
  | error (e : Trap) {w u : World} (h : E w u) : Paired E R (.error e, w) (.error e, u)
  | ok (a : α) {w u : World} (h : R w u) : Paired E R (.ok a, w) (.ok a, u)

/-- The operations give the same in two worlds, and leave related worlds behind. -/
def Operation.Paired (op : Operation) (R : World → World → Prop) (w u : World) (op' : Operation) : Prop :=
  ∀ args, (op args w).1 = (op' args u).1 ∧ R (op args w).2 (op' args u).2

variable {find' : Bytes → Option Operation} {R R' : World → World → Prop} {u : World}
  (hread : ∀ name ∈ flagName :: code.registers, w.state.read? name = u.state.read? name)
  (htop : ∀ name, code = .restore name → w.state.stack.top? = u.state.stack.top?)
  (hfind : ∀ c, w.state.need program code = .ok (.call c) →
    Option.Rel (fun op op' => op.Paired R w u op') (find c.name) (find' c.name))
  (hR : R w u)
include hread htop hfind hR

/-- The first phase in two worlds in which the instruction sees the same. -/
theorem prepare_paired : Paired R R (prepare program find code w) (prepare program find' code u) := by
  have hneed : u.state.need program code = w.state.need program code := (Code.need_congr hread htop).symm
  have hoperands {c : Call} (h : w.state.need program code = .ok (.call c)) :
      operandValues program u.state.read? c.name 0 c.args =
        operandValues program w.state.read? c.name 0 c.args := by
    refine (operandValues_congr (fun name hname => hread name ?_) c.name 0).symm
    rw [Code.operands_of_need h] at hname
    exact List.mem_cons_of_mem _ (List.mem_append_right _ hname)
  have hmissing {c : Call} (h : w.state.need program code = .ok (.call c)) (hop : find c.name = none) :
      find' c.name = none := by
    have hrel := hfind c h
    rw [hop] at hrel
    generalize find' c.name = o at hrel ⊢
    cases hrel
    rfl
  have hfound {c : Call} {op : Operation} (h : w.state.need program code = .ok (.call c))
      (hop : find c.name = some op) : ∃ op', find' c.name = some op' ∧ op.Paired R w u op' := by
    have hrel := hfind c h
    rw [hop] at hrel
    generalize find' c.name = o at hrel ⊢
    cases hrel with
    | some hpaired => exact ⟨_, rfl, hpaired⟩
  have hw := prepared program find code w
  generalize prepare program find code w = r at hw
  cases hw with
  | trapped h =>
    rw [(Prepared.trapped (hneed.trans h)).eq]
    exact .error _ hR
  | given h =>
    rw [(Prepared.given (hneed.trans h)).eq]
    exact .ok _ hR
  | notFound h hop =>
    rw [(Prepared.notFound (hneed.trans h) (hmissing h hop)).eq]
    exact .error _ hR
  | operand h hop hargs =>
    obtain ⟨op', hop', -⟩ := hfound h hop
    rw [(Prepared.operand (hneed.trans h) hop' ((hoperands h).trans hargs)).eq]
    exact .error _ hR
  | @called c op args h hop hargs =>
    obtain ⟨op', hop', hpaired⟩ := hfound h hop
    obtain ⟨hresult, hworlds⟩ := hpaired args
    rw [(Prepared.called (hneed.trans h) hop' ((hoperands h).trans hargs)).eq, ← hresult]
    cases (op args w).1 with
    | value v => exact .ok v hworlds
    | failure f => exact .error _ hworlds
    | panic p => exact .error _ hworlds

/-- **An instruction in two worlds in which it sees the same** ends in the same way, and where operations and the
second phase leave related worlds behind, so does the instruction. -/
theorem execute_paired {here : View}
    (hcommit : ∀ v a b, R a b → R' (commit program here code v a) (commit program here code v b)) :
    Paired R R' (execute program find here (some code) w) (execute program find' here (some code) u) := by
  have hpaired := prepare_paired hread htop hfind hR
  rw [execute_eq, execute_eq]
  generalize prepare program find code w = r at hpaired
  generalize prepare program find' code u = q at hpaired
  cases hpaired with
  | error e h => exact .error e h
  | ok v h => exact .ok () (hcommit v _ _ h)

end Phases

end RegisterMachine
