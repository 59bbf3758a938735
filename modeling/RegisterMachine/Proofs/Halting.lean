import RegisterMachine.Proofs.Hosting

/-!
# Halted machines

A machine says that it has halted when `pc` holds an empty view.  A step finds nothing left to execute when `pc`
holds an empty view of the machine's own program.  The two differ for views that a host has brought from elsewhere.

* `Machine.Adrift`: `pc` holds an empty view of no program, or of another one.
* `Machine.step_halted_iff`: when a step finds nothing left to execute.
* `Machine.halted_iff_step_halted`: the two agree exactly for machines that are not adrift.
-/

namespace RegisterMachine

theorem State.halted_iff {s : State} : s.halted = true ↔ ∃ v, s.pc = .view v ∧ v.isEmpty = true := by
  unfold State.halted State.view?
  cases s.pc <;> simp

namespace Machine

variable {m : Machine} {here : View}

/-- `pc` holds an empty view that does not belong to the machine's program. -/
def Adrift (m : Machine) : Prop :=
  ∃ v, m.state.pc = .view v ∧ v.isEmpty = true ∧ v.layout ≠ some m.program.layout

theorem Adrift.halted (h : m.Adrift) : m.state.halted = true := by
  obtain ⟨v, hpc, hempty, -⟩ := h
  exact State.halted_iff.mpr ⟨v, hpc, hempty⟩

theorem Adrift.step (h : m.Adrift) : m.step = (.failed (.lost m.state.pc), m) := by
  obtain ⟨v, hpc, -, hl⟩ := h
  refine step_lost (here?_eq_none_iff.mpr fun u hu => ?_)
  obtain rfl := Value.view.inj (hpc.symm.trans hu)
  exact hl

/-- A view of the program is empty exactly where there is no instruction to fetch. -/
theorem isEmpty_iff_fetched (hl : here.layout = some m.program.layout) :
    here.isEmpty = true ↔ m.program.instructions[here.offset]? = none := by
  rw [View.isEmpty, hl, decide_eq_true_iff, Array.getElem?_eq_none_iff]
  rfl

/-- **A step finds nothing left to execute** exactly if `pc` holds an empty view of the machine's program, and then
it changes nothing. -/
theorem step_halted_iff :
    m.step = (.halted, m) ↔ ∃ v, m.state.pc = .view v ∧ v.isEmpty = true ∧ v.layout = some m.program.layout := by
  constructor
  · intro h
    cases stepped_of_eq h with
    | @halted here hhere hi =>
      obtain ⟨hpc, hl⟩ := here?_eq_some_iff.mp hhere
      exact ⟨here, hpc, (isEmpty_iff_fetched hl).mpr hi, hl⟩
  · rintro ⟨v, hpc, hempty, hl⟩
    exact step_done (here?_eq_some_iff.mpr ⟨hpc, hl⟩) ((isEmpty_iff_fetched hl).mp hempty)

/-- A step that finds nothing left to execute changes nothing. -/
theorem step_eq_of_halted (h : m.step.1 = .halted) : m.step = (.halted, m) := by
  have hs := stepped m
  generalize m.step = r at h hs ⊢
  cases hs with
  | halted => rfl
  | lost | failed | advanced => cases h

theorem halted_of_step (h : m.step.1 = .halted) : m.state.halted = true := by
  obtain ⟨v, hpc, hempty, -⟩ := step_halted_iff.mp (step_eq_of_halted h)
  exact State.halted_iff.mpr ⟨v, hpc, hempty⟩

/-- **What a machine says and what a step finds.**  In whatever state the host has brought the machine, it says
that it has halted exactly if a step finds nothing left to execute, unless it is adrift.  Such a step changes
nothing.  A machine that is adrift says that it has halted, but a step has lost its place. -/
theorem halted_iff_step_halted (m : Machine) :
    ((m.state.halted = true ↔ m.step.1 = .halted) ↔ ¬ m.Adrift) ∧
      (m.step.1 = .halted → m.state.halted = true ∧ m.step.2 = m) ∧
      (m.Adrift → m.state.halted = true ∧ m.step = (.failed (.lost m.state.pc), m)) := by
  refine ⟨⟨fun hiff hadrift => ?_, fun hno => ⟨fun hhalted => ?_, fun hstep => ?_⟩⟩, fun hstep => ?_, fun h => ?_⟩
  · have hstep := hiff.mp hadrift.halted
    rw [hadrift.step] at hstep
    cases hstep
  · obtain ⟨v, hpc, hempty⟩ := State.halted_iff.mp hhalted
    have hl : v.layout = some m.program.layout :=
      Classical.byContradiction fun hl => hno ⟨v, hpc, hempty, hl⟩
    rw [step_halted_iff.mpr ⟨v, hpc, hempty, hl⟩]
  · exact halted_of_step hstep
  · exact ⟨halted_of_step hstep, congrArg Prod.snd (step_eq_of_halted hstep)⟩
  · exact ⟨h.halted, h.step⟩

/-- The host points `pc` at the empty view of no program: the machine says that it has halted, and its
step fails. -/
theorem halted_at_view_of_no_program : ∃ m₀ m,
    Machine.compile 0 ⟨[], utf8 "((assign x (const 1)))"⟩ none {} {} = .ok m₀ ∧
    m = m₀.serve (.touch (.write pcName (.view {}))) ∧ m.state.halted = true ∧ m.step.1 ≠ .halted := by
  refine ⟨_, _, rfl, rfl, rfl, fun h => ?_⟩
  cases h

end Machine

end RegisterMachine
