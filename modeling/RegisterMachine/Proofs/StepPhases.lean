import RegisterMachine.Proofs.Runs

/-!
# The two phases of a step

* `Machine.code?`, `Machine.invoked?`: the instruction that the next step executes, and the operation that it
  calls.
* `Machine.called`: the world in which the first phase of the step ends, with what the operation did.
* `Machine.own`: the touches that the instruction makes by itself.
* `Machine.step_phases`: what a step is in these terms.
-/

namespace RegisterMachine

namespace Machine

variable {m : Machine}

/-- The code of the instruction that the next step executes. -/
def code? (m : Machine) : Option Code :=
  m.here?.bind fun here => m.program.instructions[here.offset]?.bind Instruction.code

/-- The operation that the next step calls, with its arguments. -/
def invoked? (m : Machine) : Option (Operation × List Value) :=
  m.code?.bind fun code => invocation? m.program m.find code (quiet m.world).state

/-- The world in which the first phase of the next step ends. -/
def called (m : Machine) : World := afterCall (quiet m.world) m.invoked?

/-- The touches that the instruction of the next step makes by itself. -/
def own (m : Machine) : List Touch :=
  match m.code? with
  | none => []
  | some code =>
    match (prepare m.program m.find code (quiet m.world)).1 with
    | .ok v => code.touches v
    | .error _ => []

/-- What a step leaves behind, told by its phases. -/
inductive Phased (m : Machine) : Step × Machine → Prop
  | lost (h : m.here? = none) : Phased m (.failed (.lost m.state.pc), m)
  | halted {here : View} (h : m.here? = some here) (hi : m.program.instructions[here.offset]? = none) :
    Phased m (.halted, m)
  | failed {here : View} {ins : Instruction} {t : Trap} (h : m.here? = some here)
    (hi : m.program.instructions[here.offset]? = some ins) (hown : m.own = []) :
    Phased m (.failed (.trapped here.offset ins.text t), { m with world := quiet m.called })
  | advanced {here u : View} {ins : Instruction} (h : m.here? = some here)
    (hi : m.program.instructions[here.offset]? = some ins) (hown : ∀ t ∈ m.own, t.ByInstruction)
    (hu : u.layout = some m.program.layout) :
    Phased m (.advanced, { m with world := ⟨settle m.program here.offset
      { m.called.state.touched m.program.entry m.own with pc := .view u }, m.called.console⟩ })

theorem code?_eq {here : View} {ins : Instruction} (h : m.here? = some here)
    (hi : m.program.instructions[here.offset]? = some ins) : m.code? = ins.code := by
  rw [code?, h, Option.bind_some, hi, Option.bind_some]

/-- The world in which the first phase ends is the one that the call leaves behind. -/
theorem called_of_code {code : Code} (hcode : m.code? = some code) :
    m.called = (prepare m.program m.find code (quiet m.world)).2 := by
  rw [called, invoked?, hcode, Option.bind_some, prepare_world]

theorem called_of_no_code (hcode : m.code? = none) : m.called = quiet m.world := by
  rw [called, invoked?, hcode, Option.bind_none]
  rfl

theorem find_of_invoked {op : Operation} {args : List Value} (h : m.invoked? = some (op, args)) :
    ∃ name, m.find name = some op := by
  obtain ⟨code, -, hcode⟩ := Option.bind_eq_some_iff.mp h
  exact find_of_invocation hcode

/-- **A step is what the operation did, what the instruction does by itself, and the bookkeeping.** -/
theorem step_phases (m : Machine) : Phased m m.step := by
  have hs := stepped m
  generalize m.step = r at hs ⊢
  cases hs with
  | lost h => exact .lost h
  | halted h hi => exact .halted h hi
  | @failed here ins t w h hi hx =>
    have hcode := code?_eq h hi
    cases hc : ins.code with
    | none =>
      rw [hc] at hcode hx
      cases hx
      rw [← called_of_no_code hcode]
      exact .failed h hi (by rw [own, hcode])
    | some code =>
      rw [hc] at hcode hx
      have hprepare := execute_error hx
      obtain rfl : m.called = w := (called_of_code hcode).trans (congrArg (·.2) hprepare)
      exact .failed h hi (by simp only [own, hcode, hprepare])
  | @advanced here ins w h hi hx =>
    have hcode := code?_eq h hi
    cases hc : ins.code with
    | none =>
      rw [hc] at hx
      cases hx
    | some code =>
      rw [hc] at hcode hx
      obtain ⟨v, w₁, hprepare, rfl⟩ := execute_ok hx
      have hnext := next_of_prepare hprepare (here?_eq_some_iff.mp h).2
      obtain rfl : m.called = w₁ := (called_of_code hcode).trans (congrArg (·.2) hprepare)
      have hown : m.own = code.touches v := by simp only [own, hcode, hprepare]
      have hadvanced := Phased.advanced h hi (hown ▸ code.byInstruction_touches v) hnext
      rw [hown] at hadvanced
      exact hadvanced

end Machine

end RegisterMachine
