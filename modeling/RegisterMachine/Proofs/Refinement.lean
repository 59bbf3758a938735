import RegisterMachine.Proofs.Assembly
import RegisterMachine.Proofs.Step

/-!
# An assembled machine runs its controller

The machine that is created for a controller does, step by step, what the interpreter of the controller does.

* `Represents σ s`: the state `s` of the machine shows the store `σ` of the interpreter.  Contents that are a
  position in the controller show as the view that starts with the first instruction from there on.
* `Matches`: a result of the interpreter and one of the machine, for the same part of an instruction.
* `operand_matches`, `call_matches`, `instruction_matches`: one lemma for each thing that is compiled.
* `step_matches`, `run_refines`: a step, and a run of any length.
-/

namespace RegisterMachine

theorem Stack.pop?_nil {s : Stack} (h : s.values = []) : s.pop? = none := by
  unfold Stack.pop?
  split
  · rfl
  · rename_i v rest hv
    rw [h] at hv
    cases hv

theorem Stack.pop?_cons {s : Stack} {v : Value} {rest : List Value} (h : s.values = v :: rest) :
    ∃ t, s.pop? = some (v, t) ∧ t.values = rest := by
  unfold Stack.pop?
  split
  · rename_i hv
    rw [h] at hv
    cases hv
  · rename_i v' rest' hv
    rw [h] at hv
    obtain ⟨rfl, rfl⟩ := List.cons.inj hv
    exact ⟨_, rfl, rfl⟩

namespace Interpreter

/-- The state of a machine shows the store of the interpreter. -/
structure Represents (serial : Nat) (items : List Form) (σ : Store) (s : State) : Prop where
  pc : s.pc = see serial items (.place σ.position)
  flag : s.flag = see serial items σ.flag
  registers : s.registers = σ.registers.map fun e => (e.1, see serial items e.2)
  stack : s.stack.values = σ.stack.map (see serial items)

/-- What the interpreter and the machine make of one thing: results that `R` relates in the new world of the
machine, or the same trap and the world as it was. -/
inductive Matches {α β : Type} (R : α → β → World → Prop) (w : World) :
    Except Stop α → Except Trap β × World → Prop
  | ok {a : α} {b : β} {w' : World} (hR : R a b w') (hh : w'.state.halting = w.state.halting) :
    Matches R w (.ok a) (.ok b, w')
  | trap (t : Trap) : Matches R w (.error (.trap t)) (.error t, w)

theorem Matches.inv {α β : Type} {R : α → β → World → Prop} {w : World} {r : Except Stop α}
    {q : Except Trap β × World} (h : Matches R w r q) :
    (∃ a b w', r = .ok a ∧ q = (.ok b, w') ∧ R a b w' ∧ w'.state.halting = w.state.halting) ∨
    (∃ t, r = .error (.trap t) ∧ q = (.error t, w)) := by
  cases h with
  | ok hR hh => exact Or.inl ⟨_, _, _, rfl, rfl, hR, hh⟩
  | trap t => exact Or.inr ⟨t, rfl, rfl⟩

variable {serial : Nat} {items : List Form} {ops : PureTable} {p : Program} {σ : Store} {s : State} {w : World}

/-! ## Registers -/

theorem lookup_map_snd {α β : Type} (f : α → β) (name : Bytes) (entries : List (Bytes × α)) :
    (entries.map fun e => (e.1, f e.2)).lookup name = (entries.lookup name).map f := by
  induction entries with
  | nil => rfl
  | cons e rest ih =>
    rw [List.map_cons, List.lookup_cons, List.lookup_cons]
    split
    · rfl
    · exact ih

theorem Represents.read? (h : Represents serial items σ s) (name : Bytes) :
    s.read? name = (σ.read? name).map (see serial items) := by
  unfold State.read? Store.read?
  split
  · rw [h.pc]; rfl
  split
  · rw [h.flag]; rfl
  · rw [h.registers, lookup_map_snd]

theorem register_matches (h : Represents serial items σ w.state) (name : Bytes) :
    Matches (fun c v _ => v = see serial items c) w (register σ name) (registerValue w.state.read? name, w) := by
  unfold register registerValue
  rw [h.read? name]
  cases σ.read? name with
  | none => exact .trap _
  | some c => exact .ok rfl rfl

/-- A write shows, but for `pc`, which is written again before the instruction ends. -/
theorem Represents.write_jump (h : Represents serial items σ s) (name : Bytes) (c : Cell) (position : Nat) :
    Represents serial items ((σ.write name c).jump position)
      { s.write name (see serial items c) with pc := .view (viewAt serial items position) } := by
  unfold State.write Store.write
  split
  · exact ⟨rfl, h.flag, h.registers, h.stack⟩
  split
  · exact ⟨rfl, rfl, h.registers, h.stack⟩
  · refine ⟨rfl, h.flag, ?_, h.stack⟩
    show setEntry _ _ s.registers = List.map _ (List.map _ σ.registers)
    rw [setEntry, h.registers, List.map_map, List.map_map]
    refine List.map_congr_left fun e _ => ?_
    simp only [Function.comp]
    split <;> rfl

theorem Represents.jump (h : Represents serial items σ s) (position : Nat) :
    Represents serial items (σ.jump position) { s with pc := .view (viewAt serial items position) } :=
  ⟨rfl, h.flag, h.registers, h.stack⟩

/-! ## Operands -/

theorem view_eq (hp : Assembled serial items p) {offset position : Nat} (h : offset = before items position) :
    p.view offset = viewAt serial items position := by
  have hle : before items position ≤ p.size := by
    rw [hp.size_eq]
    exact before_le ..
  have hmin : min offset p.size = before items position := by omega
  unfold Program.view viewAt
  simp only [hp.layout_eq, hmin]

theorem resolve_matches (hp : Assembled serial items p) {name : Bytes} {offset : Nat}
    (h : resolve p.labels name = .ok offset) :
    ∃ position, label items name = .ok position ∧ offset = before items position := by
  unfold resolve at h
  split at h
  · rename_i o ho
    obtain rfl := Except.ok.inj h
    rw [hp.labels_eq] at ho
    obtain ⟨position, hb, rfl⟩ := behind?_of_lookup ho
    exact ⟨position, by rw [label, hb], Nat.zero_add _⟩
  · cases h

theorem tagged?_eq_some {tag : Bytes} {parts : List Form} {x : Form} (h : Form.tagged? tag parts = some x) :
    ∃ span, parts = [.ident span tag, x] := by
  unfold Form.tagged? at h
  split at h
  · rename_i span name y
    split at h
    · rename_i hn
      obtain rfl : y = x := Option.some.inj h
      exact ⟨span, by rw [eq_of_beq hn]⟩
    · cases h
  · cases h

theorem taggedName?_eq_some {tag name : Bytes} {args : List Form} (h : taggedName? tag args = some name) :
    ∃ a b d, args = [.list a [.ident b tag, .ident d name]] := by
  unfold taggedName? at h
  split at h
  · rename_i a parts
    obtain ⟨x, hx, hn⟩ := Option.bind_eq_some_iff.mp h
    obtain ⟨b, rfl⟩ := tagged?_eq_some hx
    cases x with
    | ident d n => exact ⟨a, b, d, by rw [Option.some.inj hn]⟩
    | int | float | string | list | missing => cases hn
  · cases h

theorem operand_matches (hp : Assembled serial items p) (hs : Represents serial items σ w.state) {x : Form}
    {o : Operand} (h : compileOperand p.labels x = .ok o) :
    Matches (fun c v _ => v = see serial items c) w (operand items σ x) (operandValue p w.state.read? o, w) := by
  unfold compileOperand at h
  cases x with
  | list span parts =>
    simp only [Form.items?] at h
    split at h
    · -- `(const v)`
      rename_i v hv
      obtain ⟨span', rfl⟩ := tagged?_eq_some hv
      obtain rfl := Except.ok.inj h
      exact .ok rfl rfl
    split at h
    · -- `(label name)`
      rename_i span₂ name hv
      obtain ⟨span', rfl⟩ := tagged?_eq_some hv
      obtain ⟨offset, ho, h⟩ := bind_eq_ok h
      obtain rfl := Except.ok.inj h
      obtain ⟨position, hl, hb⟩ := resolve_matches hp ho
      show Matches _ w ((label items name).map Cell.place) _
      rw [hl]
      exact .ok (congrArg Value.view (view_eq hp hb)) rfl
    · cases h
    split at h
    · -- `(reg name)`
      rename_i span₂ name hv
      obtain ⟨span', rfl⟩ := tagged?_eq_some hv
      obtain rfl := Except.ok.inj h
      exact register_matches hs name
    · cases h
  | ident | int | float | string | missing => cases h

theorem operands_matches (hp : Assembled serial items p) (hs : Represents serial items σ w.state) {op : Bytes} :
    ∀ {xs : List Form} {os : List Operand} {index : Nat}, compileOperands p.labels op index xs = .ok os →
      Matches (fun vs vs' _ => vs = vs') w (operands serial items σ op index xs)
        (operandValues p w.state.read? op index os, w)
  | [], os, index, h => by
    obtain rfl : [] = os := Except.ok.inj h
    exact .ok rfl rfl
  | x :: xs, os, index, h => by
    rw [compileOperands] at h
    split at h
    · cases h
    · rename_i o ho
      obtain ⟨os', hos, h⟩ := bind_eq_ok h
      obtain rfl : o :: os' = os := Except.ok.inj h
      unfold operands operandValues
      rcases (operand_matches hp hs ho).inv with ⟨c, v, w', hr, hq, rfl, -⟩ | ⟨t, hr, hq⟩
      · rw [hr, (Prod.mk.inj hq).1]
        rcases (operands_matches hp hs hos).inv with ⟨vs, vs', w'', hr', hq', rfl, -⟩ | ⟨t, hr', hq'⟩
        · simp only [hr', (Prod.mk.inj hq').1]
          exact .ok rfl rfl
        · simp only [hr', (Prod.mk.inj hq').1]
          exact .trap t
      · rw [hr, (Prod.mk.inj hq).1]
        exact .trap _

/-! ## Calls -/

/-- The operations of a machine whose host has only these. -/
def findPure (ops : PureTable) (name : Bytes) : Option Operation :=
  match ops.lookup name with
  | some f => some fun args (w : World) => (f args, w)
  | none => if name == utf8 "initialize" then some emptyStack else none

theorem find_ofPure {m : Machine} (hh : m.host = .ofPure ops) (hi : m.installed = {}) (name : Bytes) :
    m.find name = findPure ops name := by
  have hl : m.host.lookup name = (ops.lookup name).map fun f args (w : World) => (f args, w) := by
    rw [hh]
    exact lookup_map_snd (fun f args (w : World) => (f args, w)) name ops
  have hn : m.installed.lookup name = none := by rw [hi]; rfl
  unfold Machine.find findPure
  rw [hl, hn]
  cases ops.lookup name with
  | some f => rfl
  | none =>
    show List.lookup name [(utf8 "initialize", emptyStack)] = if name == utf8 "initialize" then _ else _
    rw [List.lookup_cons]
    cases name == utf8 "initialize" <;> rfl

/-- What a call gives: a value that shows, and a store that shows and is still at the same instruction. -/
def Called (serial : Nat) (items : List Form) (position : Nat) (r : Cell × Store) (v : Value) (w : World) : Prop :=
  v = see serial items r.1 ∧ Represents serial items r.2 w.state ∧ r.2.position = position

theorem apply_matches (hp : Assembled serial items p) (hs : Represents serial items σ w.state) {name : Bytes}
    {args : List Form} {os : List Operand} (h : compileOperands p.labels name 0 args = .ok os) :
    Matches (Called serial items σ.position) w (apply serial items ops σ name args)
      (RegisterMachine.call p (findPure ops) ⟨name, os⟩ w) := by
  unfold apply RegisterMachine.call findPure
  rcases (operands_matches hp hs h).inv with ⟨vs, vs', w', hr, hq, rfl, -⟩ | ⟨t, hr, hq⟩
  · cases ops.lookup name with
    | some f =>
      simp only [hr, (Prod.mk.inj hq).1, ok_bind]
      show Matches _ w _ ((f vs).result name, w)
      cases f vs with
      | value v => exact .ok ⟨rfl, hs, rfl⟩ rfl
      | failure e => exact .trap _
      | panic q => exact .trap _
    | none =>
      by_cases hn : name == utf8 "initialize"
      · simp only [hn, if_true, hr, (Prod.mk.inj hq).1]
        exact .ok ⟨rfl, ⟨hs.pc, hs.flag, hs.registers, rfl⟩, rfl⟩ rfl
      · simp only [hn]
        exact .trap _
  · -- operands are evaluated only for an operation that is there
    cases ops.lookup name with
    | some f =>
      simp only [hr, (Prod.mk.inj hq).1]
      exact .trap t
    | none =>
      by_cases hn : name == utf8 "initialize"
      · simp only [hn, if_true, hr, (Prod.mk.inj hq).1]
        exact .trap t
      · simp only [hn]
        exact .trap _

theorem operation?_eq_some {xs args : List Form} {x : Form} (h : operation? xs = some (x, args)) :
    ∃ a b, xs = .list a [.ident b (utf8 "op"), x] :: args := by
  unfold operation? at h
  split at h
  · rename_i a parts rest
    obtain ⟨y, hy, he⟩ := Option.map_eq_some_iff.mp h
    obtain ⟨rfl, rfl⟩ := Prod.mk.inj he
    obtain ⟨b, rfl⟩ := tagged?_eq_some hy
    exact ⟨a, b, rfl⟩
  · cases h

variable (ops)

theorem call_matches (hp : Assembled serial items p) (hs : Represents serial items σ w.state) {xs args : List Form}
    {x : Form} (hx : operation? xs = some (x, args)) {c : Call} (h : compileCall p.labels x args = .ok c) :
    Matches (Called serial items σ.position) w (call serial items ops σ xs)
      (RegisterMachine.call p (findPure ops) c w) := by
  obtain ⟨a, b, rfl⟩ := operation?_eq_some hx
  unfold compileCall at h
  split at h
  · obtain ⟨os, hos, h⟩ := bind_eq_ok h
    obtain rfl := Except.ok.inj h
    exact apply_matches hp hs hos
  · cases h

/-! ## Instructions -/

theorem advance_write (σ : Store) (name : Bytes) (c : Cell) :
    (σ.write name c).advance = (σ.write name c).jump (σ.position + 1) := by
  unfold Store.write
  split
  · rfl
  split <;> rfl

/-- Behind an instruction, the view without it starts at the next position. -/
theorem tail_viewAt {position : Nat} {span : Span} {parts : List Form}
    (hi : items[position]? = some (.list span parts)) :
    (viewAt serial items position).tail = viewAt serial items (position + 1) := by
  have hb := before_succ hi
  have hlt : before items position < Layout.total (some (layout serial items)) := by
    have := before_le_total serial items (position + 1)
    omega
  rw [View.tail_of_lt hlt]
  simp only [viewAt, hb]

/-- What is left of an instruction once a value is there, on both sides. -/
theorem andThen_matches {position : Nat} {r : Except Stop (Cell × Store)} {q : Except Trap Value × World}
    (h : Matches (Called serial items position) w r q) {f : Cell × Store → Store} {g : Value → World → World}
    (hfg : ∀ c σ' w', Represents serial items σ' w'.state → σ'.position = position →
      Represents serial items (f (c, σ')) (g (see serial items c) w').state ∧
        (g (see serial items c) w').state.halting = w'.state.halting) :
    Matches (fun σ' _ w' => Represents serial items σ' w'.state) w (r.map f) (andThen q g) := by
  rcases h.inv with ⟨⟨c, σ'⟩, v, w', rfl, rfl, ⟨rfl, hs', hpos⟩, hh⟩ | ⟨t, rfl, rfl⟩
  · obtain ⟨hR, hh'⟩ := hfg c σ' w' hs' hpos
    exact .ok hR (hh'.trans hh)
  · exact .trap t

/-- What an instruction leaves: a store that shows. -/
def Shown (serial : Nat) (items : List Form) (σ : Store) (_ : Unit) (w : World) : Prop :=
  Represents serial items σ w.state

theorem nameArg?_eq_some {args : List Form} {name : Bytes} (h : nameArg? args = some name) :
    ∃ a, args = [.ident a name] := by
  unfold nameArg? at h
  split at h
  · exact ⟨_, by rw [Option.some.inj h]⟩
  · cases h

/-- A jump through a register leads to the position that the contents show as, if they show as a position
at all. -/
theorem target?_see (serial : Nat) (items : List Form) (c : Cell) :
    (∃ position, target? serial items c = some position ∧
      see serial items c = .view (viewAt serial items position)) ∨
    (target? serial items c = none ∧
      ∀ v, see serial items c = .view v → v.layout ≠ some (layout serial items)) := by
  cases c with
  | place position => exact Or.inl ⟨position, rfl, rfl⟩
  | value u =>
    cases u with
    | view v =>
      unfold target? see
      by_cases hv : v.layout = some (layout serial items)
      · refine Or.inl ⟨_, if_pos hv, ?_⟩
        have hle : v.offset ≤ items.countP isInstruction := by
          have := v.inside
          rw [hv] at this
          exact this
        obtain ⟨l, offset, inside⟩ := v
        obtain rfl : l = _ := hv
        simp only [viewAt, before_afterInstructions hle]
      · refine Or.inr ⟨if_neg hv, fun v' hv' => ?_⟩
        rwa [← Value.view.inj hv']
    | _ => exact Or.inr ⟨rfl, fun v hv => by cases hv⟩

/-- Writing a value and moving on. -/
theorem write_matches {span : Span} {parts : List Form} (hi : items[σ.position]? = some (.list span parts))
    (name : Bytes) {r : Except Stop (Cell × Store)} {q : Except Trap Value × World}
    (h : Matches (Called serial items σ.position) w r q) :
    Matches (Shown serial items) w (r.map fun r => (r.2.write name r.1).advance)
      (andThen q fun v w => (w.write name v).jump (viewAt serial items σ.position).tail) := by
  refine andThen_matches h fun c σ' w' hs' hpos => ?_
  rw [tail_viewAt hi, ← hpos, advance_write]
  exact ⟨hs'.write_jump name c _, State.halting_write ..⟩

section Instruction

variable {span : Span} {parts args : List Form} {c : Code} (hp : Assembled serial items p)
  (hs : Represents serial items σ w.state) (hi : items[σ.position]? = some (.list span parts))
include hp hs

theorem value_matches_call {xs : List Form} {x : Form} (hx : operation? xs = some (x, args)) {c : Call}
    (h : compileCall p.labels x args = .ok c) :
    Matches (Called serial items σ.position) w (value serial items ops σ xs)
      (evaluate p (findPure ops) (some (.call c)) w) := by
  have hm := call_matches ops hp hs hx h
  obtain ⟨a, b, rfl⟩ := operation?_eq_some hx
  exact hm

theorem value_matches_operand {x : Form} (hx : operation? [x] = none) {o : Operand}
    (h : compileOperand p.labels x = .ok o) :
    Matches (Called serial items σ.position) w (value serial items ops σ [x])
      (evaluate p (findPure ops) (some (.operand o)) w) := by
  have hcall : isCall [x] = false := by
    unfold isCall
    split
    · rename_i heq
      obtain ⟨rfl, -⟩ := List.cons.inj heq
      simpa [operation?, Form.tagged?] using hx
    · rfl
  unfold value evaluate
  rw [hcall]
  rcases (operand_matches hp hs h).inv with ⟨c, v, w', hr, hq, rfl, -⟩ | ⟨t, hr, hq⟩
  · simp only [hr, (Prod.mk.inj hq).1]
    exact .ok ⟨rfl, hs, rfl⟩ rfl
  · simp only [hr, (Prod.mk.inj hq).1]
    exact .trap t

include hi

theorem assign_matches (h : compileAssign p.labels args = .ok c) :
    Matches (Shown serial items) w (assign serial items ops σ args)
      (execute p (findPure ops) (viewAt serial items σ.position) (some c) w) := by
  -- the target is looked up before the value is computed
  have key : ∀ {name : Bytes} {a : Span} {xs : List Form} {x : Expr},
      Matches (Called serial items σ.position) w (value serial items ops σ xs)
        (evaluate p (findPure ops) (some x) w) →
      Matches (Shown serial items) w (assign serial items ops σ (.ident a name :: xs))
        (execute p (findPure ops) (viewAt serial items σ.position) (some (.assign name (some x))) w) := by
    intro name a xs x hx
    unfold assign execute
    rcases (register_matches hs name).inv with ⟨c, v, w', hr, hq, rfl, -⟩ | ⟨t, hr, hq⟩
    · simp only [hr, (Prod.mk.inj hq).1]
      exact write_matches hi name hx
    · simp only [hr, (Prod.mk.inj hq).1]
      exact .trap t
  unfold compileAssign at h
  split at h
  · rename_i target x rest
    split at h
    · split at h
      · rename_i y ys hy
        obtain ⟨call, hc, h⟩ := bind_eq_ok h
        obtain rfl := Except.ok.inj h
        exact key (value_matches_call ops hp hs hy hc)
      · rename_i hno
        split at h
        · cases h
        · rename_i hrest
          obtain rfl : rest = [] := by simpa using hrest
          obtain ⟨o, ho, h⟩ := bind_eq_ok h
          obtain rfl := Except.ok.inj h
          exact key (value_matches_operand ops hp hs hno ho)
    · cases h
  · cases h

theorem test_matches {x : Form} {xs : List Form} (hx : operation? xs = some (x, args)) {c : Call}
    (h : compileCall p.labels x args = .ok c) :
    Matches (Shown serial items) w
      ((call serial items ops σ xs).map fun r => (r.2.write flagName r.1).advance)
      (execute p (findPure ops) (viewAt serial items σ.position) (some (.test c)) w) :=
  write_matches hi flagName (call_matches ops hp hs hx h)

theorem perform_matches {x : Form} {xs : List Form} (hx : operation? xs = some (x, args)) {c : Call}
    (h : compileCall p.labels x args = .ok c) :
    Matches (Shown serial items) w ((call serial items ops σ xs).map fun r => r.2.advance)
      (execute p (findPure ops) (viewAt serial items σ.position) (some (.perform c)) w) := by
  refine andThen_matches (call_matches ops hp hs hx h) fun c σ' w' hs' hpos => ?_
  rw [tail_viewAt hi, ← hpos]
  exact ⟨hs'.jump _, rfl⟩

theorem branch_matches (h : compileBranch p.labels args = .ok c) :
    Matches (Shown serial items) w (branch serial items σ args)
      (execute p (findPure ops) (viewAt serial items σ.position) (some c) w) := by
  unfold compileBranch at h
  split at h
  · rename_i name hn
    obtain ⟨offset, ho, h⟩ := bind_eq_ok h
    obtain rfl := Except.ok.inj h
    obtain ⟨a, b, d, rfl⟩ := taggedName?_eq_some hn
    obtain ⟨position, hl, hb⟩ := resolve_matches hp ho
    show Matches _ w (label items name >>= fun position =>
      .ok (if (see serial items σ.flag).truthy then σ.jump position else σ.advance)) _
    rw [hl, execute, view_eq hp hb, tail_viewAt hi, hs.flag]
    refine .ok ?_ rfl
    split
    · exact hs.jump _
    · exact hs.jump _
  · cases h

omit hi in
theorem goto_matches (h : compileGoto p.labels args = .ok c) :
    Matches (Shown serial items) w (goto serial items σ args)
      (execute p (findPure ops) (viewAt serial items σ.position) (some c) w) := by
  unfold compileGoto at h
  split at h
  · rename_i name hn
    obtain ⟨offset, ho, h⟩ := bind_eq_ok h
    obtain rfl := Except.ok.inj h
    obtain ⟨a, b, d, rfl⟩ := taggedName?_eq_some hn
    obtain ⟨position, hl, hb⟩ := resolve_matches hp ho
    show Matches _ w ((label items name).map σ.jump) _
    rw [hl, execute, view_eq hp hb]
    exact .ok (hs.jump _) rfl
  split at h
  · rename_i name hn
    obtain rfl := Except.ok.inj h
    obtain ⟨a, b, d, rfl⟩ := taggedName?_eq_some hn
    rw [goto, if_neg (by decide), if_pos (by decide)]
    unfold execute
    rcases (register_matches hs name).inv with ⟨c, v, w', hr, hq, rfl, -⟩ | ⟨t, hr, hq⟩
    · simp only [hr, (Prod.mk.inj hq).1, ok_bind]
      rcases target?_see serial items c with ⟨position, ht, hv⟩ | ⟨ht, hv⟩
      · rw [hv, ht]
        simp only [View.ofProgram, viewAt, hp.layout_eq, beq_self_eq_true, if_true]
        exact .ok (hs.jump position) rfl
      · rw [ht]
        dsimp only
        split
        · rename_i e heq
          cases heq
        · rename_i v heq
          have hv' := Except.ok.inj heq
          have hno : v.ofProgram p.layout = false := by
            have := hv v hv'
            rw [hp.layout_eq]
            simpa [View.ofProgram] using this
          rw [hno, ← hv']
          exact .trap _
        · rename_i v _ heq
          rw [← Except.ok.inj heq]
          exact .trap _
    · simp only [hr, (Prod.mk.inj hq).1]
      exact .trap t
  · cases h

omit hp in
theorem save_matches (h : compileTransfer .save .badSave args = .ok c) :
    Matches (Shown serial items) w (save σ args)
      (execute p (findPure ops) (viewAt serial items σ.position) (some c) w) := by
  unfold compileTransfer at h
  split at h
  · rename_i name hn
    obtain rfl := Except.ok.inj h
    obtain ⟨a, rfl⟩ := nameArg?_eq_some hn
    unfold save execute
    rcases (register_matches hs name).inv with ⟨c, v, w', hr, hq, rfl, -⟩ | ⟨t, hr, hq⟩
    · simp only [hr, (Prod.mk.inj hq).1]
      rw [tail_viewAt hi]
      refine .ok ⟨rfl, hs.flag, hs.registers, ?_⟩ rfl
      show _ :: w.state.stack.values = _ :: σ.stack.map _
      rw [hs.stack]
    · simp only [hr, (Prod.mk.inj hq).1]
      exact .trap t
  · cases h

omit hp in
theorem restore_matches (h : compileTransfer .restore .badRestore args = .ok c) :
    Matches (Shown serial items) w (restore σ args)
      (execute p (findPure ops) (viewAt serial items σ.position) (some c) w) := by
  unfold compileTransfer at h
  split at h
  · rename_i name hn
    obtain rfl := Except.ok.inj h
    obtain ⟨a, rfl⟩ := nameArg?_eq_some hn
    unfold restore execute
    rcases (register_matches hs name).inv with ⟨c, v, w', hr, hq, rfl, -⟩ | ⟨t, hr, hq⟩
    · simp only [hr, (Prod.mk.inj hq).1]
      have hstack := hs.stack
      cases hc : σ.stack with
      | nil =>
        rw [hc] at hstack
        rw [Stack.pop?_nil hstack]
        exact .trap _
      | cons c' rest =>
        rw [hc] at hstack
        obtain ⟨st, hpop, hst⟩ := Stack.pop?_cons hstack
        rw [hpop, tail_viewAt hi]
        have hs' : Represents serial items { σ with stack := rest } (w.setStack st).state :=
          ⟨hs.pc, hs.flag, hs.registers, hst⟩
        have hw := hs'.write_jump name c' (σ.position + 1)
        rw [← advance_write { σ with stack := rest } name c'] at hw
        exact .ok hw (State.halting_write ..)
    · simp only [hr, (Prod.mk.inj hq).1]
      exact .trap t
  · cases h

/-- **One instruction**: what is compiled does what is written. -/
theorem instruction_matches {xs : List Form} (h : compile p.labels xs = .ok c) :
    Matches (Shown serial items) w (instruction serial items ops σ xs)
      (execute p (findPure ops) (viewAt serial items σ.position) (some c) w) := by
  unfold compile at h
  split at h
  · cases h
  · rename_i tag htag
    obtain ⟨a, args, rfl⟩ : ∃ a args, xs = .ident a tag :: args := by
      unfold Form.head? at htag
      split at htag
      · exact ⟨_, _, by rw [Option.some.inj htag]⟩
      · cases htag
    dsimp only [List.tail_cons] at h
    split at h
    · rename_i ht
      obtain rfl := eq_of_beq ht
      exact assign_matches ops hp hs hi h
    split at h
    · rename_i ht
      obtain rfl := eq_of_beq ht
      unfold compileAction at h
      split at h
      · rename_i x ys hx
        obtain ⟨c', hc, h⟩ := bind_eq_ok h
        obtain rfl := Except.ok.inj h
        exact test_matches ops hp hs hi hx hc
      · cases h
    split at h
    · rename_i ht
      obtain rfl := eq_of_beq ht
      exact branch_matches ops hp hs hi h
    split at h
    · rename_i ht
      obtain rfl := eq_of_beq ht
      exact goto_matches ops hp hs h
    split at h
    · rename_i ht
      obtain rfl := eq_of_beq ht
      exact save_matches ops hs hi h
    split at h
    · rename_i ht
      obtain rfl := eq_of_beq ht
      exact restore_matches ops hs hi h
    split at h
    · rename_i ht
      obtain rfl := eq_of_beq ht
      unfold compileAction at h
      split at h
      · rename_i x ys hx
        obtain ⟨c', hc, h⟩ := bind_eq_ok h
        obtain rfl := Except.ok.inj h
        exact perform_matches ops hp hs hi hx hc
      · cases h
    · cases h

end Instruction

/-! ## Steps -/

theorem not_isLabel_skipLabels : ∀ {items : List Form} {position : Nat} {x : Form},
    items[skipLabels items position]? = some x → isLabel x = false
  | [], _, _, h => by simp at h
  | y :: rest, 0, x, h => by
    rw [skipLabels] at h
    split at h
    · rw [List.getElem?_cons_succ] at h
      exact not_isLabel_skipLabels h
    · rename_i hy
      obtain rfl : y = x := by simpa using h
      simpa using hy
  | _ :: rest, position + 1, x, h => by
    rw [skipLabels, List.getElem?_cons_succ] at h
    exact not_isLabel_skipLabels h

/-- The machine fetches the instruction that the interpreter comes to. -/
theorem fetch_matches (hp : Assembled serial items p) (position : Nat) :
    (items[skipLabels items position]? = none ∧ p.instructions[before items position]? = none) ∨
    (∃ span parts c, items[skipLabels items position]? = some (.list span parts) ∧
      p.instructions[before items position]? =
        some ⟨before items position, .list span parts, (Form.list span parts).text, some c⟩ ∧
      compile p.labels parts = .ok c) := by
  have hel := elements_before position hp.all
  cases hx : items[skipLabels items position]? with
  | none =>
    rw [hx, Option.bind_none, List.getElem?_eq_none_iff, length_elements] at hel
    refine Or.inl ⟨rfl, Array.getElem?_eq_none ?_⟩
    rw [← hp.size_eq] at hel
    exact hel
  | some x =>
    have hno := not_isLabel_skipLabels hx
    have hin := (hp.all x (List.mem_of_getElem? hx)).resolve_left (by simp [hno])
    cases x with
    | list span parts =>
      rw [hx] at hel
      obtain ⟨c, hc, hcode⟩ := hp.code _ _ parts hel
      exact Or.inr ⟨span, parts, c, rfl, hc, hcode⟩
    | ident | int | float | string | missing => simp [isInstruction] at hin

/-- What a step does on both sides. -/
inductive StepMatches (serial : Nat) (items : List Form) (σ : Store) (m : Machine) :
    Step → Machine.Step × Machine → Prop
  | advanced {σ' : Store} {w : World} (h : Represents serial items σ' w.state) :
    StepMatches serial items σ m (.advanced σ') (.advanced, { m with world := w })
  | halted : StepMatches serial items σ m .halted (.halted, m)
  | failed {position : Nat} {x : Form} {t : Trap} {w : World} (hx : items[position]? = some x)
    (h : Represents serial items σ w.state) :
    StepMatches serial items σ m (.failed position t)
      (.failed (.trapped (before items position) x.text t), { m with world := w })

/-- **One step** of the machine is one step of the interpreter. -/
theorem step_matches {m : Machine} (hp : Assembled serial items m.program) (hh : m.host = .ofPure ops)
    (hin : m.installed = {}) (hs : Represents serial items σ m.state) :
    StepMatches serial items σ m (step serial items ops σ) m.step := by
  have hhere : m.here? = some (viewAt serial items σ.position) :=
    Machine.here?_eq_some_iff.mpr ⟨hs.pc, by rw [hp.layout_eq]; rfl⟩
  have hfind : m.find = findPure ops := funext fun name => find_ofPure hh hin name
  unfold step
  rcases fetch_matches hp σ.position with ⟨hx, hi⟩ | ⟨span, parts, c, hx, hi, hc⟩
  · rw [Machine.step_done hhere hi]
    simp only [hx]
    exact .halted
  · rw [Machine.step_at hhere hi]
    simp only [hx]
    -- labels are skipped, which does not show
    have hv : viewAt serial items σ.position = viewAt serial items (skipLabels items σ.position) := by
      simp only [viewAt, before_skipLabels]
    have hs' : Represents serial items (σ.jump (skipLabels items σ.position)) (Machine.quiet m.world).state :=
      ⟨hs.pc.trans (congrArg Value.view hv), hs.flag, hs.registers, hs.stack⟩
    have hm := instruction_matches ops hp hs' hx hc
    rw [hfind, hv]
    rcases hm.inv with ⟨σ', u, w', hr, hq, hR, hh'⟩ | ⟨t, hr, hq⟩
    · have hq' : execute m.program (findPure ops) (viewAt serial items (skipLabels items σ.position)) (some c)
          (Machine.quiet m.world) = (.ok u, w') := hq
      simp only [hr, hq']
      refine .advanced ?_
      have hhalt : w'.state.halting = false := hh'
      refine ⟨?_, hR.flag, hR.registers, hR.stack⟩
      show (if w'.state.halting then _ else w'.state.pc) = _
      rw [hhalt]
      exact hR.pc
    · have hq' : execute m.program (findPure ops) (viewAt serial items (skipLabels items σ.position)) (some c)
          (Machine.quiet m.world) = (.error t, Machine.quiet m.world) := hq
      simp only [hr, hq']
      exact .failed hx ⟨hs.pc, hs.flag, hs.registers, hs.stack⟩

/-! ## Runs -/

/-- Two runs end alike: a trap is the same, at the same instruction. -/
inductive SameEnd (items : List Form) : Run → Machine.Run → Prop
  | halted : SameEnd items .halted .halted
  | unfinished : SameEnd items .unfinished .unfinished
  | failed {position : Nat} {x : Form} {t : Trap} (hx : items[position]? = some x) :
    SameEnd items (.failed position t) (.failed (.trapped (before items position) x.text t))

/-- Two runs are alike: they end alike, after the same number of steps, and the state shows the store. -/
structure SameRun (serial : Nat) (items : List Form) (r : Run × Nat × Store) (q : Machine.Run × Nat × Machine) :
    Prop where
  ending : SameEnd items r.1 q.1
  steps : r.2.1 = q.2.1
  shows : Represents serial items r.2.2 q.2.2.state

theorem runFrom_matches : ∀ (limit : Nat) {m : Machine} {σ : Store} (done : Nat),
    Assembled serial items m.program → m.host = .ofPure ops → m.installed = {} →
    Represents serial items σ m.state →
    SameRun serial items (runFrom serial items ops done limit σ) (Machine.runFrom done limit m)
  | 0, m, σ, done, _, _, _, hs => ⟨.unfinished, rfl, hs⟩
  | limit + 1, m, σ, done, hp, hh, hin, hs => by
    have hm := step_matches ops hp hh hin hs
    unfold runFrom Machine.runFrom
    generalize step serial items ops σ = r at hm
    generalize m.step = q at hm
    cases hm with
    | advanced h => exact runFrom_matches limit (done + 1) hp hh hin h
    | halted => exact ⟨.halted, rfl, hs⟩
    | failed hx h => exact ⟨.failed hx, rfl, h⟩

theorem Represents.halted (hp : Assembled serial items p) (h : Represents serial items σ s) :
    σ.halted items = s.halted := by
  have hs : s.halted = decide (items.countP isInstruction ≤ before items σ.position) := by
    unfold State.halted State.view?
    rw [h.pc]
    rfl
  rw [hs, Store.halted, Bool.eq_iff_iff, decide_eq_true_iff]
  exact all_isLabel_iff hp.all σ.position

theorem create_ok {registers : List Bytes} {host : Table} {console : Console} {controller : Form} {m : Machine}
    (h : Machine.create serial registers host console controller = .ok m) :
    Program.assemble serial controller = .ok m.program ∧ m.host = host ∧ m.installed = {} ∧
      m.state.pc = .view m.program.entry := by
  unfold Machine.create at h
  obtain ⟨s, -, h⟩ := bind_eq_ok h
  obtain ⟨program, hp, h⟩ := bind_eq_ok h
  obtain rfl := Except.ok.inj h
  exact ⟨hp, rfl, rfl, rfl⟩

/-- A store that shows as a given state at the start of the controller. -/
def Store.ofState (s : State) : Store where
  position := 0
  flag := .value s.flag
  registers := s.registers.map fun e => (e.1, .value e.2)
  stack := s.stack.values.map .value

theorem represents_ofState (hp : Assembled serial items p) (h : s.pc = .view p.entry) :
    Represents serial items (.ofState s) s where
  pc := h.trans (congrArg Value.view (view_eq hp (before_zero items).symm))
  flag := rfl
  registers := by
    show _ = List.map _ (List.map _ s.registers)
    rw [List.map_map]
    exact (List.map_id _).symm
  stack := by
    show _ = List.map _ (List.map _ s.stack.values)
    rw [List.map_map]
    exact (List.map_id _).symm

/-- **An assembled machine runs its controller.**  Take a machine that was created for a controller, with any pure
operations.  Whatever its registers, its flag and its stack hold at the start, there is a store of the interpreter
that shows as its state; and from any store and state of which one shows as the other, the machine and the
interpreter do the same for any number of steps: they end alike, with the same trap at the same instruction, after
the same number of steps, in a store and a state of which one shows as the other, and one has halted exactly if the
other has. -/
theorem run_refines {registers : List Bytes} {console : Console} {controller : Form} {m : Machine}
    (h : Machine.create serial registers (.ofPure ops) console controller = .ok m) :
    ∃ items, controller.items? = some items ∧
      (∀ s : State, s.pc = m.state.pc → ∃ σ : Store, σ.position = 0 ∧ Represents serial items σ s) ∧
      ∀ (σ : Store) (s : State), Represents serial items σ s → ∀ n : Nat,
        SameRun serial items (run serial items ops n σ) ((m.withState s).run n) ∧
        (run serial items ops n σ).2.2.halted items = ((m.withState s).run n).2.2.state.halted := by
  obtain ⟨hp, hh, hin, hpc⟩ := create_ok h
  obtain ⟨items, hitems, hp⟩ := assembled_of_assemble hp
  refine ⟨items, hitems, fun s hs => ?_, fun σ s hs n => ?_⟩
  · exact ⟨.ofState s, rfl, represents_ofState hp (hs.trans hpc)⟩
  · have hrun := runFrom_matches ops n 0 (m := m.withState s) hp hh hin hs
    exact ⟨hrun, hrun.shows.halted hp⟩

/-- A register holds the label behind the last instruction from the start, and the machine jumps to it. -/
theorem run_refines_jump_through_register : ∃ controller m items,
    controller.text = utf8 "(a (goto (reg k)) (restore k) b)" ∧
    Machine.create 0 [utf8 "k"] (.ofPure []) {} controller = .ok m ∧ controller.items? = some items ∧
    ∃ (σ : Store) (s : State), σ.registers = [(utf8 "k", .place 4)] ∧ Represents 0 items σ s ∧
      (run 0 items [] 9 σ).1 = .halted ∧ (run 0 items [] 9 σ).2.1 = 1 ∧
      SameRun 0 items (run 0 items [] 9 σ) ((m.withState s).run 9) := by
  have hsame : ∀ controller m, Machine.create 0 [utf8 "k"] (.ofPure []) {} controller = .ok m →
      ∀ items, controller.items? = some items → ∀ σ s, Represents 0 items σ s →
        SameRun 0 items (run 0 items [] 9 σ) ((m.withState s).run 9) := by
    intro controller m h items hi σ s hs
    obtain ⟨items', hi', -, hrun⟩ := run_refines [] h
    obtain rfl : items = items' := Option.some.inj (hi.symm.trans hi')
    exact (hrun σ s hs 9).1
  let word (s : String) : Form := .ident ⟨0, 0⟩ (utf8 s)
  let form (xs : List Form) : Form := .list ⟨0, 0⟩ xs
  let items :=
    [word "a", form [word "goto", form [word "reg", word "k"]], form [word "restore", word "k"], word "b"]
  exact ⟨form items, _, items, rfl, rfl, rfl, { registers := [(utf8 "k", .place 4)] },
    { pc := see 0 items (.place 0), registers := [(utf8 "k", see 0 items (.place 4))] }, rfl, ⟨rfl, rfl, rfl, rfl⟩,
    rfl, rfl, hsame (form items) _ rfl items rfl _ _ ⟨rfl, rfl, rfl, rfl⟩⟩

end Interpreter

end RegisterMachine
