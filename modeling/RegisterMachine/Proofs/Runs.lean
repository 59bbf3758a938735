import RegisterMachine.Proofs.Step

/-!
# Runs, step by step

* `Machine.Stepped`, `Machine.stepped`: what one step is.
* `Machine.Advances k m m'`: `k` steps that all succeed lead from `m` to `m'`.
* `Machine.runFrom_cases`: a run is a number of such steps, and then the limit, the end of the program or a
  failure.
* `Machine.Advances.runFrom`, `Machine.Advances.run_fst`: a run that starts with such steps goes on as the run from
  where they lead.
* `Machine.step_world`, `Machine.Advances.world`: steps change the world only.
* `Machine.run_keeps`, `Machine.run_failed`: what every step keeps, every run keeps, and it holds where a run
  fails.
-/

namespace RegisterMachine.Machine

/-- What a step is: without a place in the program it fails, behind the last instruction it halts, and else it ends
as the instruction does. -/
inductive Stepped (m : Machine) : Step × Machine → Prop
  | lost (h : m.here? = none) : Stepped m (.failed (.lost m.state.pc), m)
  | halted {here : View} (h : m.here? = some here) (hi : m.program.instructions[here.offset]? = none) :
    Stepped m (.halted, m)
  | failed {here : View} {ins : Instruction} {t : Trap} {w : World} (h : m.here? = some here)
    (hi : m.program.instructions[here.offset]? = some ins)
    (hx : execute m.program m.find here ins.code (quiet m.world) = (.error t, w)) :
    Stepped m (.failed (.trapped here.offset ins.text t), { m with world := quiet w })
  | advanced {here : View} {ins : Instruction} {w : World} (h : m.here? = some here)
    (hi : m.program.instructions[here.offset]? = some ins)
    (hx : execute m.program m.find here ins.code (quiet m.world) = (.ok (), w)) :
    Stepped m (.advanced, { m with world := { w with state := settle m.program here.offset w.state } })

theorem stepped (m : Machine) : Stepped m m.step := by
  cases hp : m.here? with
  | none =>
    rw [step_lost hp]
    exact .lost hp
  | some here =>
    cases hi : m.program.instructions[here.offset]? with
    | none =>
      rw [step_done hp hi]
      exact .halted hp hi
    | some ins =>
      rw [step_at hp hi]
      generalize hx : execute m.program m.find here ins.code (quiet m.world) = r
      obtain ⟨r, w⟩ := r
      cases r with
      | ok _ => exact .advanced hp hi hx
      | error e => exact .failed hp hi hx

theorem stepped_of_eq {m : Machine} {r : Step × Machine} (h : m.step = r) : Stepped m r := h ▸ stepped m

/-- A step changes the world only. -/
theorem step_world (m : Machine) : m.step.2 = { m with world := m.step.2.world } := by
  have h := stepped m
  generalize m.step = r at h ⊢
  cases h <;> rfl

/-- `k` steps that all succeed lead from one machine to another. -/
inductive Advances : Nat → Machine → Machine → Prop
  | refl (m : Machine) : Advances 0 m m
  | step {k : Nat} {m m' m'' : Machine} : m.step = (.advanced, m') → Advances k m' m'' → Advances (k + 1) m m''

variable {k n : Nat} {m m' : Machine}

theorem Advances.trans {m'' : Machine} (h : Advances k m m') (h' : Advances n m' m'') :
    Advances (k + n) m m'' := by
  induction h with
  | refl m => rwa [Nat.zero_add]
  | @step k m m₁ m₂ hs _ ih =>
    rw [Nat.add_right_comm]
    exact .step hs (ih h')

theorem Advances.runFrom (h : Advances k m m') (done limit : Nat) :
    runFrom done (k + limit) m = Machine.runFrom (done + k) limit m' := by
  induction h generalizing done with
  | refl m => rw [Nat.zero_add, Nat.add_zero]
  | @step k m m' m'' hs _ ih =>
    rw [Nat.add_right_comm, Machine.runFrom, hs]
    show Machine.runFrom (done + 1) (k + limit) m' = _
    rw [ih, Nat.add_assoc, Nat.add_comm 1 k]

/-- The steps that are done already are added to those of the run. -/
theorem runFrom_add (d done limit : Nat) (m : Machine) :
    runFrom (d + done) limit m =
      ((runFrom done limit m).1, d + (runFrom done limit m).2.1, (runFrom done limit m).2.2) := by
  induction limit generalizing done m with
  | zero => rfl
  | succ limit ih =>
    unfold runFrom
    split
    · next m' _ => exact ih (done + 1) m'
    · rfl
    · rfl

theorem Advances.run (h : Advances k m m') : m.run k = (.unfinished, k, m') := by
  have hrun := h.runFrom 0 0
  rwa [Nat.add_zero, Nat.zero_add] at hrun

theorem Advances.run_fst (h : Advances k m m') (n : Nat) : (m.run (k + n)).1 = (m'.run n).1 := by
  rw [Machine.run, h.runFrom, Nat.zero_add, ← Nat.add_zero k, runFrom_add]
  rfl

theorem run_of_failed {e : RuntimeError} (hs : m.step = (.failed e, m')) : (m.run (n + 1)).1 = .failed e := by
  rw [run, runFrom, hs]

theorem run_succ_of_advanced (hs : m.step.1 = .advanced) : (m.run (n + 1)).2.2 = (m.step.2.run n).2.2 := by
  have hstep : m.step = (.advanced, m.step.2) := by rw [← hs]
  have hrun : m.run (n + 1) = runFrom (1 + 0) n m.step.2 := by
    rw [run, runFrom, hstep]
  rw [hrun, runFrom_add]
  rfl

theorem run_succ_of_not_advanced (hs : m.step.1 ≠ .advanced) : (m.run (n + 1)).2.2 = m.step.2 := by
  rw [run, runFrom]
  split
  · next hstep =>
    rw [hstep] at hs
    exact absurd rfl hs
  · next hstep => rw [hstep]
  · next hstep => rw [hstep]

/-- A run that starts at all depends on the first step only. -/
theorem runFrom_congr (h : m.step = m'.step) (done limit : Nat) :
    runFrom done (limit + 1) m = runFrom done (limit + 1) m' := by
  unfold runFrom
  rw [h]

/-- Steps change the world only. -/
theorem Advances.world (h : Advances k m m') : m' = { m with world := m'.world } := by
  induction h with
  | refl m => rfl
  | @step k m m₁ m₂ hs _ ih =>
    have hw : m₁ = { m with world := m₁.world } := by
      have h₁ := step_world m
      rwa [hs] at h₁
    rw [ih, hw]

/-- **What a run is**: steps that succeed, up to the limit, to the end of the program or to a failure. -/
theorem runFrom_cases (done limit : Nat) (m : Machine) : ∃ k m', Advances k m m' ∧
    ((k = limit ∧ runFrom done limit m = (.unfinished, done + k, m')) ∨
      (∃ m'', m'.step = (.halted, m'') ∧ runFrom done limit m = (.halted, done + k, m'')) ∨
      ∃ e m'', m'.step = (.failed e, m'') ∧ runFrom done limit m = (.failed e, done + k, m'')) := by
  induction limit generalizing done m with
  | zero => exact ⟨0, m, .refl m, .inl ⟨rfl, rfl⟩⟩
  | succ limit ih =>
    unfold runFrom
    cases hs : m.step with
    | mk r m₁ =>
      cases r with
      | halted => exact ⟨0, m, .refl m, .inr (.inl ⟨m₁, hs, rfl⟩)⟩
      | failed e => exact ⟨0, m, .refl m, .inr (.inr ⟨e, m₁, hs, rfl⟩)⟩
      | advanced =>
        obtain ⟨k, m', ha, hr⟩ := ih (done + 1) m₁
        have hk : done + (k + 1) = done + 1 + k := by omega
        refine ⟨k + 1, m', .step hs ha, ?_⟩
        rw [hk]
        rcases hr with ⟨rfl, hr⟩ | hr | hr
        · exact .inl ⟨rfl, hr⟩
        · exact .inr (.inl hr)
        · exact .inr (.inr hr)

/-- Where a run fails, a step fails behind steps that succeed. -/
theorem run_failed {e : RuntimeError} (h : m.run n = (.failed e, k, m')) :
    ∃ last, Advances k m last ∧ last.step = (.failed e, m') := by
  obtain ⟨j, last, ha, ⟨-, hr⟩ | ⟨m'', -, hr⟩ | ⟨e', m'', hs, hr⟩⟩ := runFrom_cases 0 n m
  · cases h.symm.trans hr
  · cases h.symm.trans hr
  · have hrun := h.symm.trans hr
    rw [Nat.zero_add] at hrun
    cases hrun
    exact ⟨last, ha, hs⟩

section Invariant

variable {I : Machine → Prop} (hI : ∀ m, I m → I m.step.2)
include hI

theorem Advances.keeps (h : Advances k m m') (hm : I m) : I m' := by
  induction h with
  | refl m => exact hm
  | @step k m m₁ m₂ hs _ ih =>
    have h₁ := hI m hm
    rw [hs] at h₁
    exact ih h₁

/-- **What every step keeps, every run keeps.** -/
theorem run_keeps (n : Nat) (hm : I m) : I (m.run n).2.2 := by
  obtain ⟨k, last, ha, ⟨-, hr⟩ | ⟨m'', hs, hr⟩ | ⟨e, m'', hs, hr⟩⟩ := runFrom_cases 0 n m
  · rw [run, hr]
    exact ha.keeps hI hm
  · rw [run, hr]
    have hlast := hI last (ha.keeps hI hm)
    rwa [hs] at hlast
  · rw [run, hr]
    have hlast := hI last (ha.keeps hI hm)
    rwa [hs] at hlast

/-- What every step keeps holds where a run fails. -/
theorem run_failed_keeps {e : RuntimeError} (hm : I m) (h : (m.run n).1 = .failed e) :
    ∃ last m', I last ∧ last.step = (.failed e, m') := by
  have hrun : m.run n = (.failed e, (m.run n).2.1, (m.run n).2.2) := by rw [← h]
  obtain ⟨last, ha, hs⟩ := run_failed hrun
  exact ⟨last, _, ha.keeps hI hm, hs⟩

end Invariant

end RegisterMachine.Machine
