import RegisterMachine.Proofs.Lookup

/-!
# Mending a machine and resuming

A run that fails because an operation or a register is missing can be resumed once the host has supplied it.  What
comes then is what would have come had it been there from the start.

* `Repair`: what a host supplies.
* `Machine.mended`: the machine with other installed operations and further registers.
* `execute_extend`, `Machine.step_mended`, `Machine.Advances.mended`: what succeeds without the repair does the
  same with it.
* `Machine.resume_mended`: the two runs side by side.
-/

namespace RegisterMachine

/-! ## Operations that leave the machine alone -/

/-- The operation leaves the state of the machine alone: what it gives, and what it does with the console, depends
on its arguments and the console only. -/
def Operation.Detached (op : Operation) : Prop :=
  ∃ f : List Value → Console → Outcome × Console, ∀ args s c, op args ⟨s, c⟩ = ((f args c).1, ⟨s, (f args c).2⟩)

/-- All operations of the table leave the state alone. -/
def Table.Detached (t : Table) : Prop := ∀ name op, t.lookup name = some op → op.Detached

theorem Operation.pure_detached (f : List Value → Except Failure Value) : (Operation.pure f).Detached :=
  ⟨fun args c => (.ofExcept (f args), c), fun _ _ _ => rfl⟩

theorem Operation.Detached.acts {op : Operation} (h : op.Detached) (entry : View) :
    op.Acts (fun _ => True) entry := by
  obtain ⟨f, hf⟩ := h
  intro args w
  refine ⟨[], by simp, ?_⟩
  rw [hf args w.state w.console]
  rfl

/-! ## Further registers -/

/-- The state with further registers. -/
def State.extend (extra : List (Bytes × Value)) (s : State) : State := { s with registers := s.registers ++ extra }

/-- The world with further registers. -/
def World.extend (extra : List (Bytes × Value)) (w : World) : World := { w with state := w.state.extend extra }

theorem World.extend_nil (w : World) : w.extend [] = w := by
  show World.mk { w.state with registers := w.state.registers ++ [] } w.console = w
  rw [List.append_nil]

/-- The operation does the same when there are further registers, and leaves them alone. -/
def Operation.Overlooks (extra : List (Bytes × Value)) (op : Operation) : Prop :=
  ∀ args w, op args (w.extend extra) = ((op args w).1, (op args w).2.extend extra)

theorem Operation.Detached.overlooks {op : Operation} (h : op.Detached) (extra : List (Bytes × Value)) :
    op.Overlooks extra := by
  obtain ⟨f, hf⟩ := h
  intro args w
  have h₁ : op args (w.extend extra) = _ := hf args (w.state.extend extra) w.console
  have h₂ : op args w = _ := hf args w.state w.console
  rw [h₁, h₂]
  rfl

theorem emptyStack_overlooks (extra : List (Bytes × Value)) : emptyStack.Overlooks extra := fun _ _ => rfl

section Extension

variable {extra : List (Bytes × Value)} {s : State} {name : Bytes} {v : Value}

theorem State.read?_extend (h : s.read? name = some v) : (s.extend extra).read? name = some v := by
  unfold State.read? at h ⊢
  split at h
  · next hn =>
    rw [if_pos hn]
    exact h
  next hn =>
  rw [if_neg hn]
  split at h
  · next hf =>
    rw [if_pos hf]
    exact h
  next hf =>
  rw [if_neg hf]
  show (s.registers ++ extra).lookup name = _
  rw [List.lookup_append, h, Option.some_or]

theorem State.write_extend (h : ∀ e ∈ extra, e.1 ≠ name) (s : State) (v : Value) :
    (s.extend extra).write name v = (s.write name v).extend extra := by
  have hset : setEntry name v extra = extra := by
    refine (List.map_congr_left fun e he => ?_).trans (List.map_id extra)
    have hne : ¬ (e.1 == name) = true := by simpa using h e he
    rw [if_neg hne]
    rfl
  unfold State.write
  split
  · rfl
  split
  · rfl
  show State.mk _ _ (setEntry name v (s.registers ++ extra)) _ _ _ _ _ = _
  rw [setEntry, List.map_append]
  show State.mk _ _ (setEntry name v s.registers ++ setEntry name v extra) _ _ _ _ _ = _
  rw [hset]
  rfl

/-- A register that has a value is none of those that do not exist. -/
theorem ne_of_read? (hfree : ∀ e ∈ extra, s.has e.1 = false) (h : s.read? name = some v) :
    ∀ e ∈ extra, e.1 ≠ name := by
  rintro e he rfl
  have hno := hfree e he
  rw [State.has, h] at hno
  cases hno

/-- Touches by an instruction do the same when there are further registers, if they write to none of them. -/
theorem State.touched_extend {entry : View} {ts : List Touch} (hts : ∀ t ∈ ts, t.ByInstruction)
    (hwrite : ∀ name v, .write name v ∈ ts → ∀ e ∈ extra, e.1 ≠ name) (s : State) :
    (s.extend extra).touched entry ts = (s.touched entry ts).extend extra := by
  induction ts generalizing s with
  | nil => rfl
  | cons t ts ih =>
    obtain ⟨ht, hts⟩ := List.forall_mem_cons.mp hts
    have hfirst : t.apply entry (s.extend extra) = (t.apply entry s).extend extra := by
      cases t with
      | write name v => exact State.write_extend (hwrite name v List.mem_cons_self) s v
      | push | pop => rfl
      | allocate | resetStack | halt | rewind | resetStats => cases ht
    have hrest := ih hts (fun name v h => hwrite name v (List.mem_cons_of_mem _ h)) (t.apply entry s)
    rw [← hfirst] at hrest
    exact hrest

end Extension

/-! ## What succeeds does the same with more -/

/-- **An instruction that succeeds does the same with more operations and registers.** -/
theorem execute_extend {program : Program} {find find' : Bytes → Option Operation} {extra : List (Bytes × Value)}
    {w w' : World} (hfind : ∀ name op, find name = some op → find' name = some op ∧ op.Overlooks extra)
    (hfree : ∀ e ∈ extra, w.state.has e.1 = false) {here : View} {code : Option Code}
    (h : execute program find here code w = (.ok (), w')) :
    execute program find' here code (w.extend extra) = (.ok (), w'.extend extra) := by
  cases code with
  | none => cases h
  | some code =>
    obtain ⟨v, w₁, hprepare, rfl⟩ := execute_ok h
    obtain ⟨n, hneed, -⟩ := need_of_prepare hprepare
    have hmore : ∀ name v, w.state.read? name = some v → (w.extend extra).state.read? name = some v :=
      fun _ _ => State.read?_extend
    have hneed' {n : Need} (hn : w.state.need program code = .ok n) :
        (w.extend extra).state.need program code = .ok n := Code.need_mono hmore (fun _ htop => htop) hn
    have hprepare' : prepare program find' code (w.extend extra) = (.ok v, w₁.extend extra) := by
      have hprepared := prepared program find code w
      generalize prepare program find code w = r at hprepare hprepared
      cases hprepared with
      | given hn =>
        cases hprepare
        exact (Prepared.given (hneed' hn)).eq
      | @called c op args hn hop hargs =>
        obtain ⟨hop', hoverlooks⟩ := hfind c.name op hop
        obtain ⟨hresult, rfl⟩ := Prod.mk.inj hprepare
        rw [(Prepared.called (hneed' hn) hop' (operandValues_mono hmore hargs)).eq, hoverlooks, hresult]
      | trapped | notFound | operand => cases hprepare
    -- the instruction writes to registers that exist
    have hwrite : ∀ name u, .write name u ∈ code.touches v → ∀ e ∈ extra, e.1 ≠ name := by
      intro name u hmem
      rcases Code.target_of_write hmem with rfl | hsubject
      · exact ne_of_read? hfree (v := w.state.flag) rfl
      · obtain ⟨x, hx⟩ := Code.read_of_need hneed hsubject
        exact ne_of_read? hfree hx
    rw [execute_eq, hprepare']
    show (Except.ok (), World.mk { State.touched (w₁.state.extend extra) program.entry (code.touches v) with
      pc := .view ((code.next v).from program here) } w₁.console) = _
    rw [State.touched_extend (code.byInstruction_touches v) hwrite]
    rfl

/-! ## Machines with more -/

namespace Machine

variable {m m' last : Machine} {table : Table} {extra : List (Bytes × Value)} {k : Nat}

/-- The machine with other installed operations and further registers. -/
def mended (table : Table) (extra : List (Bytes × Value)) (m : Machine) : Machine :=
  { m with installed := table, world := m.world.extend extra }

/-- The operations of the machine are found in the mended machine too, and overlook the further registers. -/
def Covered (table : Table) (extra : List (Bytes × Value)) (m : Machine) : Prop :=
  ∀ name op, m.find name = some op → (m.mended table extra).find name = some op ∧ op.Overlooks extra

/-- **A step that succeeds does the same on a mended machine.** -/
theorem step_mended (hc : m.Covered table extra) (hfree : ∀ e ∈ extra, m.state.has e.1 = false)
    (h : m.step = (.advanced, m')) : (m.mended table extra).step = (.advanced, m'.mended table extra) := by
  cases stepped_of_eq h with
  | @advanced here ins w hhere hi hx =>
    have hhere' : (m.mended table extra).here? = some here := hhere
    have hfree' : ∀ e ∈ extra, (quiet m.world).state.has e.1 = false := hfree
    have hx' : execute (m.mended table extra).program (m.mended table extra).find here ins.code
        (quiet (m.mended table extra).world) = (.ok (), w.extend extra) := execute_extend hc hfree' hx
    rw [step_at hhere' hi, hx']
    rfl

theorem Advances.names {P : Touch → Prop} (h : Advances k m last) (hm : m.Acts P) (hP : P .resetStack) :
    m.state.names <+: last.state.names := by
  have hkeep : ∀ m' : Machine, (m'.Acts P ∧ m.state.names <+: m'.state.names) →
      m'.step.2.Acts P ∧ m.state.names <+: m'.step.2.state.names :=
    fun m' h => ⟨h.1.step.2, h.2.trans (names_step h.1 hP)⟩
  exact (h.keeps hkeep ⟨hm, List.prefix_refl _⟩).2

/-- Steps that succeed do the same on a mended machine. -/
theorem Advances.mended (h : Advances k m last) (hm : m.Acts (fun _ => True)) (hc : m.Covered table extra)
    (hfree : ∀ e ∈ extra, last.state.has e.1 = false) :
    Advances k (m.mended table extra) (last.mended table extra) := by
  induction h with
  | refl m => exact .refl _
  | @step k m m₁ last hs ha ih =>
    have hw : m₁ = { m with world := m₁.world } := by
      have h₁ := step_world m
      rwa [hs] at h₁
    have hm₁ : m₁.Acts (fun _ => True) := by
      rw [hw]
      exact hm
    have hc₁ : m₁.Covered table extra := by
      rw [hw]
      exact hc
    -- registers never go away, so what is missing at the end was missing before
    have hnames : m.state.names <+: last.state.names := (Advances.step hs ha).names hm trivial
    have hfree₀ : ∀ e ∈ extra, m.state.has e.1 = false :=
      fun e he => State.has_antitone hnames.subset (hfree e he)
    exact .step (step_mended hc hfree₀ hs) (ih hm₁ hc₁ hfree)

end Machine

/-! ## Repairs -/

/-- What a host supplies to a machine that misses an operation or a register. -/
inductive Repair where
  | install (name : Bytes) (op : Operation)
  | allocate (name : Bytes)

namespace Repair

/-- The repair supplies what the trap complains about. -/
def Mends (t : Trap) : Repair → Prop
  | install name _ => t = .operationNotFound name
  | allocate name => t.missingRegister? = some name

/-- The machine after the repair, unless it has the register already. -/
def mend? (m : Machine) : Repair → Option Machine
  | install name op => some (m.install name op)
  | allocate name => (m.state.allocate? name).map m.withState

/-- The installed operations after the repair. -/
def table (t : Table) : Repair → Table
  | install name op => t.insert name op
  | allocate _ => t

/-- The registers that the repair adds. -/
def registers : Repair → List (Bytes × Value)
  | install .. => []
  | allocate name => [(name, .nil)]

/-- The machine lacks what the repair supplies. -/
def Needed (m : Machine) : Repair → Prop
  | install name _ => m.find name = none
  | allocate name => m.state.has name = false

variable {m : Machine} {r : Repair}

theorem mend?_eq (h : r.Needed m) : r.mend? m = some (m.mended (r.table m.installed) r.registers) := by
  cases r with
  | install name op =>
    show some (m.install name op) = some (m.mended (m.installed.insert name op) [])
    rw [Machine.mended, World.extend_nil]
    rfl
  | allocate name =>
    show (m.state.allocate? name).map m.withState = _
    rw [State.allocate?_of_not_has h]
    rfl

/-- The registers that the repair adds are not there yet. -/
theorem free_registers (h : r.Needed m) : ∀ e ∈ r.registers, m.state.has e.1 = false := by
  cases r with
  | install name op => exact fun e he => absurd he List.not_mem_nil
  | allocate name => exact List.forall_mem_singleton.mpr h

/-- What is missing at the end of some steps was missing before. -/
theorem needed_before {k : Nat} {last : Machine} (h : Machine.Advances k m last) (hm : m.Acts (fun _ => True))
    (hneeded : r.Needed last) : r.Needed m := by
  cases r with
  | install name op =>
    rw [h.world] at hneeded
    exact hneeded
  | allocate name => exact State.has_antitone (h.names hm trivial).subset hneeded

/-- A repaired machine finds what it found before. -/
theorem covered (h : r.Needed m) (hh : m.host.Detached) (hi : m.installed.Detached) :
    m.Covered (r.table m.installed) r.registers := by
  intro name op hop
  cases r with
  | install f g =>
    have hne : name ≠ f := by
      rintro rfl
      rw [show m.find name = none from h] at hop
      cases hop
    refine ⟨?_, fun args w => ?_⟩
    · show (((m.installed.insert f g).lookup name).or (m.host.lookup name)).or (Table.builtin.lookup name) = _
      rw [Table.lookup_insert, if_neg hne]
      exact hop
    · show op args (w.extend []) = (_, World.extend [] _)
      rw [World.extend_nil, World.extend_nil]
  | allocate z =>
    refine ⟨hop, ?_⟩
    exact Machine.forall_find (fun _ _ h => (hi _ _ h).overlooks _) (fun _ _ h => (hh _ _ h).overlooks _)
      (emptyStack_overlooks _) hop

end Repair

namespace Machine

variable {m m₁ : Machine} {r : Repair} {n k i : Nat} {text : Bytes} {t : Trap}

/-- A step that misses what a repair supplies has only withdrawn a request to halt. -/
theorem step_lacking (h : m.step = (.failed (.trapped i text t), m₁)) (hr : r.Mends t) :
    (∃ here ins, m.here? = some here ∧ m.program.instructions[here.offset]? = some ins) ∧
      m₁ = { m with world := quiet m.world } ∧ r.Needed m := by
  cases stepped_of_eq h with
  | @failed here ins t w hhere hi hx =>
    have htells := execute_tells hx
    have hw : w = quiet m.world := by
      refine htells.unchanged ?_
      cases r with
      | install name op =>
        obtain rfl : t = .operationNotFound name := hr
        rfl
      | allocate name =>
        cases t <;> first | rfl | cases hr
    refine ⟨⟨here, ins, hhere, hi⟩, ?_, ?_⟩
    · rw [hw]
      rfl
    · cases r with
      | install name op => exact htells.notFound name hr
      | allocate name => exact (htells.missing name hr).2

/-- **Mending and resuming is as good as mending first.**  Let the operations of a machine leave its state alone,
and let a run of it fail after `k` steps because an operation is in no table or a register does not exist.  Then
what is missing can be supplied to the machine as the run left it, and to the machine as it was before.  However
far the first is run then, the second gets to the same end with `k` more steps, in the same state, but for a
request to halt if the first has not been run on at all. -/
theorem resume_mended (hh : m.host.Detached) (hi : m.installed.Detached)
    (h : m.run n = (.failed (.trapped i text t), k, m₁)) (hr : r.Mends t) :
    ∃ m' m₁', r.mend? m = some m' ∧ r.mend? m₁ = some m₁' ∧
      ∀ l, ∃ o j a b, m₁'.run l = (o, j, a) ∧ m'.run (k + l) = (o, k + j, b) ∧
        a = b.withState { b.state with halting := a.state.halting } ∧ (0 < l → a = b) := by
  obtain ⟨last, hadv, hstep⟩ := run_failed h
  obtain ⟨⟨here, ins, hhere, hins⟩, rfl, hneeded⟩ := step_lacking hstep hr
  have hacts : m.Acts (fun _ => True) := ⟨fun _ _ hop => (hh _ _ hop).acts _, fun _ _ hop => (hi _ _ hop).acts _⟩
  have hneeded₀ : r.Needed m := Repair.needed_before hadv hacts hneeded
  have hadv' := hadv.mended hacts (Repair.covered hneeded₀ hh hi) (Repair.free_registers hneeded)
  have htable : last.installed = m.installed := by rw [hadv.world]
  refine ⟨_, { last with world := quiet last.world }.mended (r.table m.installed) r.registers,
    Repair.mend?_eq hneeded₀, ?_, fun l => ?_⟩
  · rw [← htable]
    exact Repair.mend?_eq (m := { last with world := quiet last.world }) (by cases r <;> exact hneeded)
  cases l with
  | zero =>
    refine ⟨.unfinished, 0, _, last.mended (r.table m.installed) r.registers, rfl, ?_, rfl, by simp⟩
    have hrun := hadv'.runFrom 0 0
    rw [Nat.zero_add] at hrun
    exact hrun
  | succ l =>
    -- both runs go on from the same state, up to a request to halt that no step looks at
    have hsame := step_quiet (m := last.mended (r.table m.installed) r.registers) hhere hins
    have hrun := hadv'.runFrom 0 (l + 1)
    rw [Nat.zero_add, ← Nat.add_zero k, runFrom_add] at hrun
    exact ⟨_, _, _, _, runFrom_congr hsame 0 l, hrun, rfl, fun _ => rfl⟩

/-- An operation is missed behind a step that empties the stack, and once it is installed, a register is missed by
an operand.  The machine that was mended twice where it had stopped runs to its end, past the instruction that had
failed, and so does the machine that was mended twice before its first step, with all its steps in one run. -/
theorem resume_mended_operand : ∃ m m₁ m₂ m₃ m' last text t,
    Machine.compile 0 ⟨[], utf8 "((test (op initialize)) (assign x (op f) (reg x) (reg z)) (save x))"⟩
      (some [utf8 "x"]) {} {} = .ok m ∧
    m.run 9 = (.failed (.trapped 1 text (.operationNotFound (utf8 "f"))), 1, m₁) ∧
    Repair.mend? m₁ (.install (utf8 "f") (.pure fun args => .ok (.list args))) = some m₂ ∧
    m₂.run 9 = (.failed (.trapped 1 text t), 0, m₃) ∧ Repair.Mends t (.allocate (utf8 "z")) ∧
    (∃ m₄, Repair.mend? m₃ (.allocate (utf8 "z")) = some m₄ ∧ m₄.run 9 = (.halted, 2, last)) ∧
    last.state.stack.values = [.list [.nil, .nil]] ∧
    Repair.mend? (m.install (utf8 "f") (.pure fun args => .ok (.list args))) (.allocate (utf8 "z")) = some m' ∧
    m'.run 10 = (.halted, 3, last) := by
  obtain ⟨m, m₁, m₂, m₃, m₄, last, text, t, hm, hran, hm₂, hran₂, ht, hm₄, hran₄, hstack, hh, hi⟩ :
      ∃ m m₁ m₂ m₃ m₄ last text t,
        Machine.compile 0 ⟨[], utf8 "((test (op initialize)) (assign x (op f) (reg x) (reg z)) (save x))"⟩
          (some [utf8 "x"]) {} {} = .ok m ∧
        m.run 9 = (.failed (.trapped 1 text (.operationNotFound (utf8 "f"))), 1, m₁) ∧
        Repair.mend? m₁ (.install (utf8 "f") (.pure fun args => .ok (.list args))) = some m₂ ∧
        m₂.run 9 = (.failed (.trapped 1 text t), 0, m₃) ∧ Repair.Mends t (.allocate (utf8 "z")) ∧
        Repair.mend? m₃ (.allocate (utf8 "z")) = some m₄ ∧ m₄.run 9 = (.halted, 2, last) ∧
        last.state.stack.values = [.list [.nil, .nil]] ∧ m.host = {} ∧ m.installed = {} :=
    ⟨_, _, _, _, _, _, _, _, rfl, rfl, rfl, rfl, rfl, rfl, rfl, rfl, rfl, rfl⟩
  have hnone : Table.Detached {} := fun _ _ hop => by cases hop
  -- with the operation from the start, the first step is done in the run that misses the register
  obtain ⟨_, _, heq, heq₂, hinstalled⟩ :=
    resume_mended (hh ▸ hnone) (hi ▸ hnone) hran
      (r := .install (utf8 "f") (.pure fun args => .ok (.list args))) rfl
  cases heq
  cases heq₂.symm.trans hm₂
  obtain ⟨o, j, a, b, ha, hb, -, hab⟩ := hinstalled 9
  cases ha.symm.trans hran₂
  cases hab (by decide)
  have hpure : Table.Detached (m.install (utf8 "f") (.pure fun args => .ok (.list args))).installed := by
    show Table.Detached (m.installed.insert _ _)
    rw [hi]
    exact fun _ _ hop => Table.forall_lookup (List.forall_mem_singleton.mpr (Operation.pure_detached _)) hop
  obtain ⟨m', _, hm', heq₄, hallocated⟩ := resume_mended (hh ▸ hnone) hpure hb ht
  cases heq₄.symm.trans hm₄
  obtain ⟨o, j, a, b, ha, hb, -, hab⟩ := hallocated 9
  cases ha.symm.trans hran₄
  cases hab (by decide)
  exact ⟨m, m₁, m₂, _, m', _, text, t, hm, hran, hm₂, hran₂, ht, ⟨_, hm₄, hran₄⟩, hstack, hm', hb⟩

end Machine

end RegisterMachine
