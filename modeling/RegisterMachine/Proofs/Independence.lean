import RegisterMachine.Proofs.RegisterUse
import RegisterMachine.Proofs.Resumption

/-!
# Registers that play no part

A register that no instruction refers to neither changes nor matters, as long as the operations leave the machine
alone.

* `Beside x v w a b`: the same was done to `w` twice, the second time with `v` in register `x`; the worlds `a` and
  `b` that came of it differ in `x` only.
* `execute_spared`, `Machine.step_put`: an instruction spares every register that it does not refer to.
* `Machine.steps`: a number of steps and how each of them ended, failed ones included.
* `State.AgreeExcept x`: states that are the same but for what register `x` holds.
* `Machine.unused_register`: two runs side by side.
-/

namespace RegisterMachine

/-! ## Writing to a register -/

theorem lookup_setEntry_of_ne {x y : Bytes} (h : y ≠ x) (v : Value) (entries : List (Bytes × Value)) :
    (setEntry x v entries).lookup y = entries.lookup y := by
  induction entries with
  | nil => rfl
  | cons e rest ih =>
    rw [setEntry] at ih ⊢
    rw [List.map_cons, List.lookup_cons, List.lookup_cons, ih]
    by_cases he : e.1 = x
    · have hy : (y == x) = false := by simpa using h
      simp [he, hy]
    · simp [he]

theorem lookup_setEntry_self {x : Bytes} {entries : List (Bytes × Value)} (h : (entries.lookup x).isSome = true)
    (v : Value) : (setEntry x v entries).lookup x = some v := by
  induction entries with
  | nil => cases h
  | cons e rest ih =>
    rw [setEntry] at ih ⊢
    rw [List.map_cons, List.lookup_cons]
    rw [List.lookup_cons] at h
    by_cases he : e.1 = x
    · simp [he]
    · have hne : (x == e.1) = false := by simpa using Ne.symm he
      rw [hne] at h
      simpa [he, hne] using ih h

theorem setEntry_comm {x y : Bytes} (h : y ≠ x) (u v : Value) (entries : List (Bytes × Value)) :
    setEntry x v (setEntry y u entries) = setEntry y u (setEntry x v entries) := by
  unfold setEntry
  rw [List.map_map, List.map_map]
  refine List.map_congr_left fun e _ => ?_
  by_cases hx : e.1 = x
  · simp [hx, h.symm]
  · by_cases hy : e.1 = y
    · simp [hy, h]
    · simp [hx, hy]

namespace State

variable {x y : Bytes}

theorem write_of_ne (hpc : x ≠ pcName) (hflag : x ≠ flagName) (s : State) (v : Value) :
    s.write x v = { s with registers := setEntry x v s.registers } := by
  unfold State.write
  rw [if_neg (by simpa using hpc), if_neg (by simpa using hflag)]

theorem read?_write_of_ne (h : y ≠ x) (s : State) (v : Value) : (s.write x v).read? y = s.read? y := by
  unfold State.write State.read?
  by_cases hpc : x = pcName
  · subst hpc
    simp [h]
  by_cases hflag : x = flagName
  · subst hflag
    simp [hpc, h]
  simp [hpc, hflag, lookup_setEntry_of_ne h]

theorem read?_write_self {s : State} (h : s.has x = true) (v : Value) :
    (s.write x v).read? x = some v := by
  unfold State.has State.read? at h
  unfold State.write State.read?
  by_cases hpc : x = pcName
  · simp [hpc]
  by_cases hflag : x = flagName
  · simp [hflag, show flagName ≠ pcName by decide]
  have hpc' : (x == pcName) = false := by simpa using hpc
  have hflag' : (x == flagName) = false := by simpa using hflag
  rw [hpc', hflag'] at h ⊢
  exact lookup_setEntry_self h v

theorem write_comm (hpc : x ≠ pcName) (hflag : x ≠ flagName) (h : y ≠ x) (s : State) (u v : Value) :
    (s.write y u).write x v = (s.write x v).write y u := by
  rw [write_of_ne hpc hflag, write_of_ne hpc hflag]
  unfold State.write
  split
  · rfl
  split
  · rfl
  · rw [setEntry_comm h]

end State

/-! ## Actions that spare a register -/

/-- The worlds come from `w` and from `w` with `v` in register `x`.  The second one is the first one with `v` in
the register, which the first one has left as it was in `w`. -/
def Beside (x : Bytes) (v : Value) (w a b : World) : Prop := b = a.write x v ∧ a.state.read? x = w.state.read? x

/-- The change of the world spares register `x`. -/
def Spares (x : Bytes) (f : World → World) : Prop := ∀ w v, Beside x v w (f w) (f (w.write x v))

/-- The operation spares register `x`. -/
def Operation.Spares (x : Bytes) (op : Operation) : Prop := ∀ w v, op.Paired (Beside x v w) w (w.write x v) op

section Spares

variable {x : Bytes} {v : Value} {w : World}

theorem Spares.comp {f g : World → World} (hg : Spares x g) (hf : Spares x f) : Spares x fun w => g (f w) := by
  intro w v
  obtain ⟨hf₁, hf₂⟩ := hf w v
  obtain ⟨hg₁, hg₂⟩ := hg (f w) v
  refine ⟨?_, hg₂.trans hf₂⟩
  show g (f (w.write x v)) = _
  rw [hf₁, hg₁]

/-- A change that spares the register can follow. -/
theorem Beside.spares {f : World → World} (hf : Spares x f) {a b : World} (h : Beside x v w a b) :
    Beside x v w (f a) (f b) := by
  obtain ⟨rfl, hkept⟩ := h
  exact ⟨(hf a v).1, (hf a v).2.trans hkept⟩

variable (hpc : x ≠ pcName) (hflag : x ≠ flagName)
include hpc hflag

theorem World.write_of_ne (w : World) (v : Value) :
    w.write x v = { w with state := { w.state with registers := setEntry x v w.state.registers } } := by
  rw [World.write, State.write_of_ne hpc hflag]

theorem read?_of_registers {s t : State} (h : s.registers = t.registers) : s.read? x = t.read? x := by
  simp [State.read?, hpc, hflag, h]

/-- Whatever looks at no registers and leaves them as they are spares any of them. -/
theorem spares_of_registers {f : World → World}
    (h : ∀ (w : World) (l : List (Bytes × Value)),
      f { w with state := { w.state with registers := l } } =
        { f w with state := { (f w).state with registers := l } } ∧ (f w).state.registers = w.state.registers) :
    Spares x f := by
  intro w v
  obtain ⟨hbeside, hkept⟩ := h w (setEntry x v w.state.registers)
  refine ⟨?_, read?_of_registers hpc hflag hkept⟩
  rw [World.write_of_ne hpc hflag, World.write_of_ne hpc hflag, hkept, hbeside]

theorem jump_spares (u : View) : Spares x (·.jump u) :=
  spares_of_registers hpc hflag fun _ _ => ⟨rfl, rfl⟩

theorem quiet_spares : Spares x Machine.quiet :=
  spares_of_registers hpc hflag fun _ _ => ⟨rfl, rfl⟩

theorem settle_spares (program : Program) (index : Nat) :
    Spares x fun w => { w with state := Machine.settle program index w.state } :=
  spares_of_registers hpc hflag fun _ _ => ⟨rfl, rfl⟩

/-- Touches by an instruction spare a register to which they do not write. -/
theorem touched_spares {entry : View} {ts : List Touch} (hts : ∀ t ∈ ts, t.ByInstruction)
    (hwrite : ∀ name u, .write name u ∈ ts → name ≠ x) :
    Spares x fun w => { w with state := w.state.touched entry ts } := by
  induction ts with
  | nil => exact fun _ _ => ⟨rfl, rfl⟩
  | cons t ts ih =>
    obtain ⟨ht, hts⟩ := List.forall_mem_cons.mp hts
    have hfirst : Spares x fun w => { w with state := t.apply entry w.state } := by
      cases t with
      | write name u =>
        intro w v
        have hne : name ≠ x := hwrite name u List.mem_cons_self
        refine ⟨?_, State.read?_write_of_ne hne.symm w.state u⟩
        exact congrArg (World.mk · w.console) (State.write_comm hpc hflag hne w.state u v).symm
      | push | pop => exact spares_of_registers hpc hflag fun _ _ => ⟨rfl, rfl⟩
      | allocate | resetStack | halt | rewind | resetStats => cases ht
    exact (ih hts fun name u h => hwrite name u (List.mem_cons_of_mem _ h)).comp hfirst

theorem emptyStack_spares : emptyStack.Spares x := by
  intro w v args
  exact ⟨rfl, spares_of_registers hpc hflag (f := (·.setStack .reset)) (fun _ _ => ⟨rfl, rfl⟩) w v⟩

omit hpc hflag in
theorem Operation.Detached.spares {op : Operation} (h : op.Detached) : op.Spares x := by
  obtain ⟨f, hf⟩ := h
  intro w v args
  have hw : op args w = _ := hf args w.state w.console
  have hw' : op args (w.write x v) = _ := hf args (w.state.write x v) w.console
  rw [hw, hw']
  exact ⟨rfl, rfl, rfl⟩

/-- **An instruction spares every register that it does not refer to.** -/
theorem execute_spared {program : Program} {find : Bytes → Option Operation}
    (hfind : ∀ name op, find name = some op → op.Spares x) {here : View} {code : Option Code}
    (hx : x ∉ (code.map Code.registers).getD []) (w : World) (v : Value) :
    Paired (Beside x v w) (Beside x v w) (execute program find here code w)
      (execute program find here code (w.write x v)) := by
  cases code with
  | none => exact .error .noCode ⟨rfl, rfl⟩
  | some code =>
    have hne : ∀ name ∈ flagName :: code.registers, name ≠ x := by
      refine List.forall_mem_cons.mpr ⟨hflag.symm, ?_⟩
      rintro name hname rfl
      exact hx hname
    have hstack : (w.write x v).state.stack = w.state.stack := by
      rw [World.write_of_ne hpc hflag]
    have hwrite : ∀ v name u, .write name u ∈ code.touches v → name ≠ x := fun v name u hmem => by
      rcases Code.target_of_write hmem with rfl | hsubject
      · exact hflag.symm
      · exact hne name (List.mem_cons_of_mem _ (Code.mem_registers_of_subject hsubject))
    refine execute_paired (fun name hname => (State.read?_write_of_ne (hne name hname) w.state v).symm)
      (fun _ _ => by rw [hstack]) (fun c _ => ?_) ⟨rfl, rfl⟩ fun u a b h => ?_
    · cases hop : find c.name with
      | none => exact .none
      | some op => exact .some (hfind c.name op hop w v)
    · exact h.spares ((jump_spares hpc hflag _).comp
        (touched_spares hpc hflag (code.byInstruction_touches u) (hwrite u)))

end Spares

/-! ## Steps -/

namespace Machine

/-- The machine with another value in a register. -/
def put (x : Bytes) (v : Value) (m : Machine) : Machine := { m with world := m.world.write x v }

/-- Register `x` plays no part for the machine: it is neither `pc` nor `flag`, no instruction refers to it, and the
operations leave the state alone. -/
structure Disregards (x : Bytes) (m : Machine) : Prop where
  pc : x ≠ pcName
  flag : x ≠ flagName
  unused : x ∉ m.program.registers
  host : m.host.Detached
  installed : m.installed.Detached

variable {x : Bytes} {m : Machine}

theorem Disregards.find (h : m.Disregards x) (name : Bytes) (op : Operation) (hop : m.find name = some op) :
    op.Spares x :=
  forall_find (fun _ _ h' => (h.installed _ _ h').spares) (fun _ _ h' => (h.host _ _ h').spares)
    (emptyStack_spares h.pc h.flag) hop

theorem Disregards.code (h : m.Disregards x) {k : Nat} {ins : Instruction}
    (hi : m.program.instructions[k]? = some ins) : x ∉ (ins.code.map Code.registers).getD [] := by
  intro hmem
  exact h.unused (List.mem_flatMap.mpr ⟨ins, Array.mem_toList_iff.mpr (Array.mem_of_getElem? hi), hmem⟩)

theorem Disregards.step (h : m.Disregards x) : m.step.2.Disregards x := by
  rw [step_world]
  exact ⟨h.pc, h.flag, h.unused, h.host, h.installed⟩

theorem Disregards.here? (h : m.Disregards x) (v : Value) : (m.put x v).here? = m.here? := by
  unfold Machine.here? put Machine.state
  rw [World.write_of_ne h.pc h.flag]
  rfl

theorem Disregards.execute_put (h : m.Disregards x) {here : View} {ins : Instruction}
    (hi : m.program.instructions[here.offset]? = some ins) {r : Except Trap Unit} {w : World}
    (hx : execute m.program m.find here ins.code (quiet m.world) = (r, w)) (v : Value) :
    execute (m.put x v).program (m.put x v).find here ins.code (quiet (m.put x v).world) = (r, w.write x v) ∧
      w.state.read? x = m.state.read? x := by
  have hquiet := quiet_spares h.pc h.flag m.world v
  have hspared : Paired _ _ (execute m.program m.find here ins.code (quiet m.world))
      (execute m.program m.find here ins.code ((quiet m.world).write x v)) :=
    execute_spared h.pc h.flag h.find (h.code hi) (quiet m.world) v
  have hput : (quiet (m.put x v).world) = (quiet m.world).write x v := hquiet.1
  rw [hput]
  show execute m.program m.find here ins.code _ = _ ∧ _
  rw [hx] at hspared
  generalize execute m.program m.find here ins.code ((quiet m.world).write x v) = q at hspared
  cases hspared with
  | error e hbeside => exact ⟨by rw [hbeside.1], hbeside.2.trans hquiet.2⟩
  | ok a hbeside => exact ⟨by rw [hbeside.1], hbeside.2.trans hquiet.2⟩

/-- **A step spares a register that plays no part.** -/
theorem step_put (h : m.Disregards x) (v : Value) :
    (m.put x v).step = (m.step.1, m.step.2.put x v) ∧ m.step.2.state.read? x = m.state.read? x := by
  have hs := stepped m
  generalize m.step = r at hs
  cases hs with
  | lost hhere =>
    have hhere' : (m.put x v).here? = none := (h.here? v).trans hhere
    have hpc : (m.put x v).state.pc = m.state.pc := by
      unfold put Machine.state
      rw [World.write_of_ne h.pc h.flag]
    refine ⟨?_, rfl⟩
    rw [step_lost hhere', hpc]
  | @halted here hhere hi =>
    have hhere' : (m.put x v).here? = some here := (h.here? v).trans hhere
    exact ⟨step_done hhere' hi, rfl⟩
  | @failed here ins t w hhere hi hx =>
    have hhere' : (m.put x v).here? = some here := (h.here? v).trans hhere
    obtain ⟨hx', hkept⟩ := h.execute_put hi hx v
    obtain ⟨hquiet, hkept'⟩ := quiet_spares h.pc h.flag w v
    refine ⟨?_, hkept'.trans hkept⟩
    rw [step_at hhere' hi, hx', conclude, hquiet]
    rfl
  | @advanced here ins w hhere hi hx =>
    have hhere' : (m.put x v).here? = some here := (h.here? v).trans hhere
    obtain ⟨hx', hkept⟩ := h.execute_put hi hx v
    obtain ⟨hsettle, hkept'⟩ := settle_spares h.pc h.flag m.program here.offset w v
    refine ⟨?_, hkept'.trans hkept⟩
    rw [step_at hhere' hi, hx']
    exact congrArg (fun w => (Step.advanced, { m with world := w })) hsettle

/-- A number of steps: how each of them ended, and the machine after the last one.  Steps go on behind
a failure. -/
def steps : Nat → Machine → List Step × Machine
  | 0, m => ([], m)
  | n + 1, m => (m.step.1 :: (steps n m.step.2).1, (steps n m.step.2).2)

/-- **Any number of steps spare a register that plays no part.** -/
theorem steps_put (h : m.Disregards x) (v : Value) (n : Nat) :
    (m.put x v).steps n = ((m.steps n).1, (m.steps n).2.put x v) ∧
    (m.steps n).2.state.read? x = m.state.read? x := by
  induction n generalizing m with
  | zero => exact ⟨rfl, rfl⟩
  | succ n ih =>
    obtain ⟨hstep, hkept⟩ := step_put h v
    obtain ⟨hsteps, hkept'⟩ := ih h.step
    refine ⟨?_, hkept'.trans hkept⟩
    rw [steps, hstep, hsteps]
    rfl

end Machine

/-! ## Two runs -/

/-- The states are the same but for what register `x` holds. -/
structure State.AgreeExcept (x : Bytes) (s t : State) : Prop where
  /-- The same registers in the same order, and but for `x` with the same values. -/
  registers : List.Forall₂ (fun a b => a.1 = b.1 ∧ (a.1 ≠ x → a.2 = b.2)) s.registers t.registers
  /-- `pc`, `flag`, the stack and the statistics. -/
  others : { s with registers := [] } = { t with registers := [] }

theorem setEntry_eq_iff (x : Bytes) (v : Value) (l l' : List (Bytes × Value)) :
    setEntry x v l = setEntry x v l' ↔ List.Forall₂ (fun a b => a.1 = b.1 ∧ (a.1 ≠ x → a.2 = b.2)) l l' := by
  have hentry (a b : Bytes × Value) : (if a.1 == x then (a.1, v) else a) = (if b.1 == x then (b.1, v) else b) ↔
      a.1 = b.1 ∧ (a.1 ≠ x → a.2 = b.2) := by
    by_cases ha : a.1 = x
    · by_cases hb : b.1 = x
      · simp [ha, hb]
      · have hxb : x ≠ b.1 := fun h => hb h.symm
        simp [ha, hb, Prod.ext_iff, hxb]
    · by_cases hb : b.1 = x
      · simp [ha, hb, Prod.ext_iff]
      · simp [ha, hb, Prod.ext_iff]
  unfold setEntry
  rw [← List.forall₂_eq_eq_eq, List.forall₂_map_left_iff, List.forall₂_map_right_iff]
  simp only [hentry]

theorem State.agreeExcept_iff {x : Bytes} (hpc : x ≠ pcName) (hflag : x ≠ flagName) (v : Value) (s t : State) :
    s.AgreeExcept x t ↔ s.write x v = t.write x v := by
  rw [write_of_ne hpc hflag, write_of_ne hpc hflag]
  constructor
  · intro h
    have hregisters := (setEntry_eq_iff x v _ _).mpr h.registers
    have hothers := congrArg (fun u : State => { u with registers := setEntry x v s.registers }) h.others
    rw [← hregisters]
    exact hothers
  · intro h
    have hregisters : setEntry x v s.registers = setEntry x v t.registers := congrArg State.registers h
    have hothers := congrArg (fun u : State => { u with registers := [] }) h
    exact ⟨(setEntry_eq_iff x v _ _).mp hregisters, hothers⟩

/-- What is written to the register makes no difference elsewhere. -/
theorem State.agreeExcept_write {x : Bytes} (hpc : x ≠ pcName) (hflag : x ≠ flagName) (s : State) (u v : Value) :
    (s.write x u).AgreeExcept x (s.write x v) := by
  have hagain (v' : Value) : setEntry x .nil (setEntry x v' s.registers) = setEntry x .nil s.registers := by
    unfold setEntry
    rw [List.map_map]
    refine List.map_congr_left fun e _ => ?_
    by_cases he : e.1 = x
    · simp [he]
    · simp [he]
  rw [agreeExcept_iff hpc hflag .nil]
  simp only [write_of_ne hpc hflag, hagain]

namespace Machine

/-- **A register that a program does not mention neither changes nor matters.**  Let the operations of a machine
leave its state alone, and take a register other than `pc` and `flag` that is not among those found in its
controller.  Start the machine in two states that are the same but for what this register holds.  However many
steps are made, they end in the same ways, errors included, the states stay the same but for that register, and
each keeps what it held. -/
theorem unused_register {serial : Nat} {controller : Form} {m : Machine}
    (hp : Program.assemble serial controller = .ok m.program) (hh : m.host.Detached) (hi : m.installed.Detached)
    {x : Bytes} (hpc : x ≠ pcName) (hflag : x ≠ flagName) (hx : x ∉ inferRegisters controller) {s t : State}
    (hst : s.AgreeExcept x t) (n : Nat) :
    ∃ ends a b, (m.withState s).steps n = (ends, a) ∧ (m.withState t).steps n = (ends, b) ∧
      a.state.AgreeExcept x b.state ∧ b = a.withState b.state ∧
      a.state.read? x = s.read? x ∧ b.state.read? x = t.read? x := by
  obtain ⟨items, hitems, hassembled⟩ := Interpreter.assembled_of_assemble hp
  have hunused : x ∉ m.program.registers := by
    rw [hassembled.mem_inferred hitems] at hx
    exact fun hmem => hx ⟨hmem, hpc, hflag⟩
  have hs : (m.withState s).Disregards x := ⟨hpc, hflag, hunused, hh, hi⟩
  have ht : (m.withState t).Disregards x := ⟨hpc, hflag, hunused, hh, hi⟩
  have hput : (m.withState s).put x .nil = (m.withState t).put x .nil := by
    have hwrite := (State.agreeExcept_iff hpc hflag .nil s t).mp hst
    exact congrArg m.withState hwrite
  obtain ⟨hsteps, hkept⟩ := steps_put hs .nil n
  obtain ⟨hsteps', hkept'⟩ := steps_put ht .nil n
  have hboth := hsteps'.symm.trans (hput ▸ hsteps)
  obtain ⟨hends, hmachine⟩ := Prod.mk.inj hboth
  refine ⟨((m.withState s).steps n).1, ((m.withState s).steps n).2, ((m.withState t).steps n).2, rfl, ?_,
    ?_, ?_, hkept, hkept'⟩
  · rw [← hends]
  · exact (State.agreeExcept_iff hpc hflag .nil _ _).mpr (congrArg Machine.state hmachine).symm
  · exact congrArg (·.withState ((m.withState t).steps n).2.state) hmachine

/-- The program fills a register, fails to divide, and would jump back; a register that it does not mention holds a
list or a view of no program. -/
theorem unused_register_failing : ∃ controller m,
    Source.readOne [⟨[], utf8 "(l (assign y (const 7)) (assign y (op /) (reg y)) (goto (label l)))"⟩] .form =
      (some controller, none) ∧
    Machine.create 0 [utf8 "y", utf8 "x"] ⟨[(utf8 "/", .pure fun _ => .error .divisionByZero)]⟩
      {} controller = .ok m ∧
    ∃ text e a b,
      (m.withState (m.state.write (utf8 "x") (.view {}))).steps 3 =
        ([.advanced, .failed (.trapped 1 text e), .failed (.trapped 1 text e)], a) ∧
      (m.withState (m.state.write (utf8 "x") (.list []))).steps 3 =
        ([.advanced, .failed (.trapped 1 text e), .failed (.trapped 1 text e)], b) ∧
      a.state.AgreeExcept (utf8 "x") b.state ∧ b = a.withState b.state ∧
      a.state.read? (utf8 "x") = some (.view {}) ∧ b.state.read? (utf8 "x") = some (.list []) := by
  obtain ⟨controller, m, hread, hcreate, hinferred, ⟨text, e, hends⟩, hx, hx'⟩ : ∃ controller m,
      Source.readOne [⟨[], utf8 "(l (assign y (const 7)) (assign y (op /) (reg y)) (goto (label l)))"⟩] .form =
        (some controller, none) ∧
      Machine.create 0 [utf8 "y", utf8 "x"] ⟨[(utf8 "/", .pure fun _ => .error .divisionByZero)]⟩ {} controller =
        .ok m ∧
      inferRegisters controller = [utf8 "y"] ∧
      (∃ text e, ((m.withState (m.state.write (utf8 "x") (.view {}))).steps 3).1 =
        [.advanced, .failed (.trapped 1 text e), .failed (.trapped 1 text e)]) ∧
      (m.state.write (utf8 "x") (.view {})).read? (utf8 "x") = some (.view {}) ∧
      (m.state.write (utf8 "x") (.list [])).read? (utf8 "x") = some (.list []) :=
    ⟨_, _, rfl, rfl, rfl, ⟨_, _, rfl⟩, rfl, rfl⟩
  have hpc : utf8 "x" ≠ pcName := by decide
  have hflag : utf8 "x" ≠ flagName := by decide
  have hunused : utf8 "x" ∉ inferRegisters controller := by
    rw [hinferred]
    decide
  obtain ⟨hp, hhost, hinstalled, -⟩ := Interpreter.create_ok hcreate
  have hh : m.host.Detached := by
    rw [hhost]
    exact fun _ _ hop => Table.forall_lookup (List.forall_mem_singleton.mpr (Operation.pure_detached _)) hop
  have hi : m.installed.Detached := by
    rw [hinstalled]
    exact fun _ _ hop => by cases hop
  obtain ⟨ends, a, b, ha, hb, hagree, hsame, hkept, hkept'⟩ :=
    unused_register hp hh hi hpc hflag hunused (m.state.agreeExcept_write hpc hflag (.view {}) (.list [])) 3
  rw [ha] at hends
  obtain rfl : ends = _ := hends
  exact ⟨controller, m, hread, hcreate, text, e, a, b, ha, hb, hagree, hsame, hkept.trans hx, hkept'.trans hx'⟩

end Machine

end RegisterMachine
