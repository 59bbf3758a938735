import RegisterMachine.Machine.Compile
import RegisterMachine.Operation.Host
import RegisterMachine.Proofs.Phases

/-!
# What one step does

* `Machine.here?`: the view in `pc`, if it is one of the machine's own program.  The three cases of a step
  (`step_lost`, `step_done`, `step_at`) are told apart by it.
* `State.Agree`: two states are the same but for a request to halt.
* `Operation.Inert`: an operation leaves the machine alone, apart from a request to halt.
* `step_failed_atomic`: a step that fails leaves everything as it was, and the error names the place.
-/

namespace RegisterMachine

/-! ## The three cases of a step -/

namespace Machine

variable {m m' : Machine} {here : View} {ins : Instruction}

/-- The view in `pc`, if it belongs to the machine's program. -/
def here? (m : Machine) : Option View := m.state.view?.filter (·.ofProgram m.program.layout)

theorem here?_eq_some_iff :
    m.here? = some here ↔ m.state.pc = .view here ∧ here.layout = some m.program.layout := by
  unfold here? State.view? View.ofProgram
  rw [Option.filter_eq_some_iff]
  cases hpc : m.state.pc <;> simp

theorem here?_eq_none_iff :
    m.here? = none ↔ ∀ v, m.state.pc = .view v → v.layout ≠ some m.program.layout := by
  rw [Option.eq_none_iff_forall_ne_some]
  refine forall_congr' fun v => ?_
  rw [ne_eq, here?_eq_some_iff, not_and]

theorem step_lost (h : m.here? = none) : m.step = (.failed (.lost m.state.pc), m) := by
  unfold step
  unfold here? at h
  cases hv : m.state.view? with
  | none => rfl
  | some v =>
    rw [hv] at h
    have hp : v.ofProgram m.program.layout = false := by
      cases hp : v.ofProgram m.program.layout with
      | false => rfl
      | true => simp [hp] at h
    simp [hp]

theorem step_of_here? (h : m.here? = some here) :
    m.step = match m.program.instructions[here.offset]? with
      | none => (.halted, m)
      | some ins => m.stepAt here ins := by
  obtain ⟨hpc, hl⟩ := here?_eq_some_iff.mp h
  have hp : here.ofProgram m.program.layout = true := by rw [View.ofProgram, hl]; exact beq_self_eq_true _
  simp only [step, State.view?, hpc, hp]
  rfl

theorem step_done (h : m.here? = some here) (hi : m.program.instructions[here.offset]? = none) :
    m.step = (.halted, m) := by
  rw [step_of_here? h, hi]

/-- An instruction knows its position, so that a step counts and reports the offset at which it stands. -/
theorem stepAt_eq (hi : m.program.instructions[here.offset]? = some ins) :
    m.stepAt here ins =
      m.conclude here.offset ins.text (execute m.program m.find here ins.code (quiet m.world)) := by
  rw [stepAt, Program.index_eq hi]

theorem step_at (h : m.here? = some here) (hi : m.program.instructions[here.offset]? = some ins) :
    m.step = m.conclude here.offset ins.text (execute m.program m.find here ins.code (quiet m.world)) := by
  rw [step_of_here? h, hi]
  exact stepAt_eq hi

/-- Steps start by withdrawing a request to halt. -/
theorem step_quiet (h : m.here? = some here) (hi : m.program.instructions[here.offset]? = some ins) :
    { m with world := quiet m.world }.step = m.step := by
  rw [step_at h hi, step_at (m := { m with world := quiet m.world }) h hi]
  rfl

end Machine

/-! ## States that differ in a request to halt only -/

namespace State

variable {s t u : State}

/-- The same state, but for a request to halt. -/
def Agree (s t : State) : Prop := { s with halting := false } = { t with halting := false }

theorem Agree.refl (s : State) : s.Agree s := Eq.refl _

theorem Agree.trans (h : s.Agree t) (h' : t.Agree u) : s.Agree u := Eq.trans h h'

theorem agree_halting (s : State) (b : Bool) : Agree { s with halting := b } s := rfl

theorem Agree.eq (h : s.Agree t) : s = { t with halting := s.halting } := by
  have h' := congrArg (fun x : State => { x with halting := s.halting }) h
  exact h'

end State

/-- The operation leaves the machine alone.  It may ask the machine to halt, and it may use the console. -/
def Operation.Inert (op : Operation) : Prop := ∀ args w, (op args w).2.state.Agree w.state

/-- All operations of the table leave the machine alone. -/
def Table.Inert (t : Table) : Prop := ∀ name op, t.lookup name = some op → op.Inert

theorem Table.inert_of_forall {t : Table} (h : ∀ e ∈ t.entries, e.2.Inert) : t.Inert := by
  intro name op hop
  obtain ⟨before, after, hs, -⟩ := List.lookup_eq_some_iff.mp hop
  exact h (name, op) (hs ▸ List.mem_append_right before List.mem_cons_self)

/-- The operation leaves the machine alone unless it gives a value. -/
def Operation.FailsClean (op : Operation) : Prop :=
  ∀ args w, (∀ v, (op args w).1 ≠ .value v) → (op args w).2.state.Agree w.state

theorem Operation.Inert.failsClean {op : Operation} (h : op.Inert) : op.FailsClean := fun args w _ => h args w

/-- The operation that empties the stack cannot fail. -/
theorem emptyStack_failsClean : emptyStack.FailsClean := fun _ _ h => absurd rfl (h .nil)

/-- What a machine finds: an installed operation, one of the host, or the one that every machine has. -/
theorem Machine.find_cases {m : Machine} {name : Bytes} {op : Operation} (h : m.find name = some op) :
    m.installed.lookup name = some op ∨ m.host.lookup name = some op ∨
      (name = utf8 "initialize" ∧ op = emptyStack) := by
  unfold Machine.find at h
  rw [Option.or_eq_some_iff, Option.or_eq_some_iff] at h
  rcases h with (h | ⟨-, h⟩) | ⟨-, h⟩
  · exact .inl h
  · exact .inr (.inl h)
  · unfold Table.builtin Table.lookup at h
    rw [List.lookup_cons] at h
    split at h
    · next hname => exact .inr (.inr ⟨beq_iff_eq.mp hname, (Option.some.inj h).symm⟩)
    · simp at h

/-- Whatever a machine with inert tables calls, its own operations included, fails clean. -/
theorem Machine.find_failsClean {m : Machine} (hh : m.host.Inert) (hi : m.installed.Inert) {name : Bytes}
    {op : Operation} (h : m.find name = some op) : op.FailsClean := by
  rcases find_cases h with h | h | ⟨-, rfl⟩
  · exact (hi name op h).failsClean
  · exact (hh name op h).failsClean
  · exact emptyStack_failsClean

/-! ## An instruction that fails -/

section Execution

variable {program : Program} {find : Bytes → Option Operation} {w w' : World} {e : Trap}
  (hfind : ∀ name op, find name = some op → op.FailsClean)
include hfind

/-- **An instruction fails before it writes.** -/
theorem execute_error_agree {here : View} {code : Option Code}
    (h : execute program find here code w = (.error e, w')) : w'.state.Agree w.state := by
  cases code with
  | none =>
    cases h
    exact State.Agree.refl _
  | some code =>
    have hfailed := execute_error h
    have hprepared := prepared program find code w
    generalize prepare program find code w = r at hfailed hprepared
    cases hprepared with
    | @called c op args _ hop _ =>
      obtain ⟨hresult, rfl⟩ := Prod.mk.inj hfailed
      refine hfind c.name op hop args w fun v hv => ?_
      rw [hv] at hresult
      cases hresult
    | given => cases hfailed
    | trapped | notFound | operand =>
      cases hfailed
      exact State.Agree.refl _

end Execution

/-! ## A step that fails -/

namespace Machine

variable {m m' : Machine} {here : View} {ins : Instruction} {e : RuntimeError}

theorem conclude_failed {index : Nat} {text : Bytes} {r : Except Trap Unit × World}
    (h : m.conclude index text r = (.failed e, m')) :
    ∃ t w, r = (.error t, w) ∧ e = .trapped index text t ∧ m' = { m with world := quiet w } := by
  unfold conclude at h
  split at h
  · cases h
  · next t w =>
    cases h
    exact ⟨t, w, rfl, rfl, rfl⟩

/-- **A failed step is atomic.**  Whatever state the machine is in, if a step fails then the state, the program and
the operations are what they were, a request to halt apart.  The error carries the offset that `pc` still points
at, and the number -1 exactly if `pc` holds no view of the machine's program. -/
theorem step_failed_atomic (hh : m.host.Inert) (hi : m.installed.Inert) (h : m.step = (.failed e, m')) :
    m'.state = { m.state with halting := m'.state.halting } ∧
      m'.program = m.program ∧ m'.host = m.host ∧ m'.installed = m.installed ∧
      (∀ v, m'.state.pc = .view v → v.ofProgram m'.program.layout → e.index = v.offset) ∧
      (e.index = -1 ↔ ∀ v, m'.state.pc = .view v → v.ofProgram m'.program.layout = false) := by
  cases hp : m.here? with
  | none =>
    rw [step_lost hp] at h
    obtain ⟨h1, rfl⟩ := Prod.mk.inj h
    obtain rfl := Step.failed.inj h1
    have hno : ∀ v, m.state.pc = .view v → v.ofProgram m.program.layout = false := fun v hv => by
      have := here?_eq_none_iff.mp hp v hv
      simpa [View.ofProgram] using this
    refine ⟨rfl, rfl, rfl, rfl, fun v hv hv' => ?_, fun _ => hno, fun _ => rfl⟩
    rw [hno v hv] at hv'
    cases hv'
  | some here =>
    obtain ⟨hpc, hl⟩ := here?_eq_some_iff.mp hp
    rw [step_of_here? hp] at h
    split at h
    · cases h
    · next ins hins =>
      rw [stepAt_eq hins] at h
      obtain ⟨trap, w, hw, rfl, rfl⟩ := conclude_failed h
      have hag : w.state.Agree (quiet m.world).state :=
        execute_error_agree (fun _ _ hop => find_failsClean hh hi hop) hw
      have hs : (quiet w).state = { m.state with halting := (quiet w).state.halting } := State.Agree.eq hag
      have hpc' : (quiet w).state.pc = .view here := by rw [hs, ← hpc]
      refine ⟨hs, rfl, rfl, rfl, fun v hv _ => ?_, fun h1 => ?_, fun h1 => ?_⟩
      · rw [show Machine.state { m with world := quiet w } = (quiet w).state from rfl, hpc'] at hv
        obtain rfl := Value.view.inj hv
        rfl
      · -- an offset is no negative number
        simp only [RuntimeError.index] at h1
        omega
      · have := h1 here hpc'
        simp [View.ofProgram, hl] at this

theorem step_failed_atomic_after_save : ∃ m₀ m m' e,
    Machine.compile 0 ⟨[], utf8 "((save x) (perform (op stop) (reg x)))"⟩ none
      ⟨[(utf8 "stop", Host.haltAndFail ⟨[]⟩)]⟩ {} = .ok m₀ ∧
    m₀.step = (.advanced, m) ∧ m.host.Inert ∧ m.installed.Inert ∧ m.step = (.failed e, m') ∧
    m.state.stack.values = [.nil] ∧ e.index = 1 ∧ m'.state = { m.state with halting := m'.state.halting } := by
  refine ⟨_, _, _, _, rfl, rfl, ?host, ?installed, rfl, rfl, rfl, (step_failed_atomic ?host ?installed rfl).1⟩
  · refine Table.inert_of_forall fun e he => ?_
    obtain rfl := List.mem_singleton.mp he
    exact fun _ _ => rfl
  · exact Table.inert_of_forall fun _ he => absurd he List.not_mem_nil

end Machine

end RegisterMachine
