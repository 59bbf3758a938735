import RegisterMachine.Proofs.Hosting
import RegisterMachine.Proofs.Shapes

/-!
# `pc` stays inside the program

Every instruction ends with a jump to a view of the program, whatever else it wrote, and what a host does leaves
`pc` alone or points it at the start.  So `pc` holds a view of the machine's own program at all times.

* `State.Homed p s`: `pc` holds a view of `p`, and there is a count for each of its instructions.
* `State.Homed.touch`, `Machine.step_homed`: touches and steps keep that.
* `Machine.Inside`: what follows for the next step.
* `Machine.pc_stays_inside`: it holds after any requests of a host.
-/

namespace RegisterMachine

/-! ## Touches -/

/-- `pc` holds a view of the program, and there is a count for each of its instructions. -/
structure State.Homed (p : Program) (s : State) : Prop where
  pc : ∃ v, s.pc = .view v ∧ v.layout = some p.layout
  counts : s.counts.size = p.size

theorem Touch.size_counts (entry : View) (s : State) (t : Touch) :
    (t.apply entry s).counts.size = s.counts.size := by
  cases t with
  | write name v =>
    exact State.write_keeps (f := fun s => s.counts.size) s name v (fun _ _ => rfl) (fun _ _ => rfl) fun _ _ => rfl
  | allocate name =>
    show ((s.allocate? name).getD s).counts.size = _
    unfold State.allocate?
    split <;> rfl
  | resetStats => exact Array.size_map
  | push | pop | resetStack | halt | rewind => rfl

theorem State.size_counts_touched (s : State) (entry : View) (ts : List Touch) :
    (s.touched entry ts).counts.size = s.counts.size :=
  State.touched_keeps (I := fun t => t.counts.size = s.counts.size) (P := fun _ => True)
    (fun _ t _ h => (t.size_counts entry _).trans h) (fun _ _ => trivial) rfl

theorem Touch.pc_apply (entry : View) (s : State) {t : Touch} (ht : t.SparesPc) :
    (t.apply entry s).pc = s.pc ∨ (t.apply entry s).pc = .view entry := by
  cases t with
  | write name v =>
    left
    show (s.write name v).pc = _
    have hne : ¬ (name == pcName) = true := by simpa [SparesPc] using ht
    unfold State.write
    rw [if_neg hne]
    split <;> rfl
  | allocate name =>
    left
    show ((s.allocate? name).getD s).pc = _
    unfold State.allocate?
    split <;> rfl
  | rewind => exact .inr rfl
  | push | pop | resetStack | halt | resetStats => exact .inl rfl

theorem State.Homed.touch {p : Program} {s : State} {t : Touch} (h : s.Homed p) (ht : t.SparesPc) :
    (t.apply p.entry s).Homed p := by
  refine ⟨?_, (Touch.size_counts ..).trans h.counts⟩
  rcases Touch.pc_apply p.entry s ht with hpc | hpc
  · rw [hpc]
    exact h.pc
  · exact ⟨p.entry, hpc, rfl⟩

/-! ## Steps -/

namespace Machine

variable {m : Machine}

/-- **A step keeps `pc` inside the program.** -/
theorem step_homed (hm : m.Acts Touch.SparesPc) (h : m.state.Homed m.program) :
    m.step.2.state.Homed m.program := by
  have hquiet : (quiet m.world).state.Homed m.program := ⟨h.pc, h.counts⟩
  have heff := step_effect hm trivial
  generalize m.step = r at heff
  cases heff with
  | lost => exact h
  | halted => exact h
  | @failed here ins trap ts w _ _ hts hw =>
    have hts' : (State.touched _ m.program.entry ts).Homed m.program :=
      State.touched_keeps (fun s t ht hs => hs.touch ht) hts hquiet
    show w.state.Homed m.program
    rw [hw]
    exact ⟨hts'.pc, hts'.counts⟩
  | @advanced here u ins ts w _ _ hts hu hw =>
    show w.state.Homed m.program
    rw [hw]
    refine ⟨?_, ?_⟩
    · -- a request to halt leads behind the last instruction
      unfold settle
      dsimp only
      split
      · exact ⟨_, rfl, rfl⟩
      · exact ⟨u, rfl, hu⟩
    · show (Array.modify _ _ _).size = _
      rw [Array.size_modify]
      exact (State.size_counts_touched ..).trans hquiet.counts

/-- What a machine does next when `pc` is inside its program, which was assembled from `items`. -/
structure Inside (items : List Form) (m : Machine) (v : View) : Prop where
  /-- `pc` holds a view of the machine's own program. -/
  pc : m.state.pc = .view v
  own : v.layout = some m.program.layout
  bound : v.offset ≤ m.program.size
  /-- There is a count for each instruction. -/
  counts : m.state.counts.size = m.program.size
  /-- The instruction at the offset was assembled from the instruction of the controller with that number. -/
  fetched : ∀ ins, m.program.instructions[v.offset]? = some ins →
    ∃ parts, (Interpreter.elements items)[v.offset]? = some (ins.source, parts)
  /-- There is nothing left to execute only behind the last instruction. -/
  halted : ∀ m', m.step = (.halted, m') → v.offset = m.program.size ∧ m' = m
  /-- A step that fails is blamed on the instruction at the offset. -/
  failed : ∀ e m', m.step = (.failed e, m') →
    ∃ ins trap, m.program.instructions[v.offset]? = some ins ∧ e = .trapped v.offset ins.text trap
  /-- A step that succeeds is counted at the offset, for which there is a count. -/
  advanced : ∀ m', m.step = (.advanced, m') → v.offset < m.program.size ∧
    ∃ s, s.counts.size = m.program.size ∧ m'.state = settle m.program v.offset s

theorem inside_of_homed {serial : Nat} {items : List Form} (hp : Interpreter.Assembled serial items m.program)
    (hm : m.Acts Touch.SparesPc) (h : m.state.Homed m.program) : ∃ v, m.Inside items v := by
  obtain ⟨v, hpc, hown⟩ := h.pc
  have hhere : m.here? = some v := here?_eq_some_iff.mpr ⟨hpc, hown⟩
  have hbound : v.offset ≤ m.program.size := by
    have := v.inside
    rw [hown] at this
    exact this
  have heff := step_effect hm trivial
  refine ⟨v, hpc, hown, hbound, h.counts, ?_, ?_, ?_, ?_⟩
  · intro ins hins
    obtain ⟨parts, c, hparts, -⟩ := hp.instruction hins
    exact ⟨parts, hparts⟩
  · intro m' hs
    rw [hs] at heff
    cases heff with
    | halted hh hi =>
      obtain rfl := Option.some.inj (hhere.symm.trans hh)
      have hsize : m.program.size ≤ v.offset := Array.getElem?_eq_none_iff.mp hi
      exact ⟨by omega, rfl⟩
  · intro e m' hs
    rw [hs] at heff
    cases heff with
    | lost hh =>
      rw [hhere] at hh
      cases hh
    | failed hh hi =>
      obtain rfl := Option.some.inj (hhere.symm.trans hh)
      exact ⟨_, _, hi, rfl⟩
  · intro m' hs
    rw [hs] at heff
    cases heff with
    | advanced hh hi hts hu hw =>
      obtain rfl := Option.some.inj (hhere.symm.trans hh)
      refine ⟨(Array.getElem?_eq_some_iff.mp hi).1, _, ?_, hw⟩
      exact (State.size_counts_touched (quiet m.world).state ..).trans h.counts

theorem create_homed {serial : Nat} {registers : List Bytes} {host : Table} {console : Console} {controller : Form}
    (h : Machine.create serial registers host console controller = .ok m) : m.state.Homed m.program := by
  unfold Machine.create at h
  obtain ⟨s, -, h⟩ := bind_eq_ok h
  obtain ⟨program, -, h⟩ := bind_eq_ok h
  obtain rfl := Except.ok.inj h
  exact ⟨⟨program.entry, rfl, rfl⟩, Array.size_replicate⟩

/-- **`pc` stays inside the program.**  Take a machine that was created for a controller, and let its host ask for
steps and runs, install operations, and touch the state in any way but writing to `pc`; operations may touch the
state in the same ways.  Then all labels and destinations lie inside the program, and after any such requests `pc`
holds a view of the machine's own program: the next step counts or blames the instruction that `pc` points at, and
no step or run loses its place. -/
theorem pc_stays_inside {serial : Nat} {registers : List Bytes} {host : Table} {console : Console}
    {controller : Form}
    (h : Machine.create serial registers host console controller = .ok m)
    (hh : host.Acts Touch.SparesPc m.program.entry) {rs : List Request}
    (hrs : ∀ r ∈ rs, r.Acts Touch.SparesPc m.program.entry) :
    ∃ items, controller.items? = some items ∧
      (∀ l ∈ m.program.labels, l.2 ≤ m.program.size) ∧
      (∀ (k : Nat) (ins : Instruction) (c : Code), m.program.instructions[k]? = some ins → ins.code = some c →
        ∀ o ∈ c.destinations, o ≤ m.program.size) ∧
      (m.serveAll rs).program = m.program ∧
      (∃ v, (m.serveAll rs).Inside items v) ∧
      ∀ n pc, ((m.serveAll rs).run n).1 ≠ .failed (.lost pc) := by
  obtain ⟨items, hitems, hp⟩ := Interpreter.assembled_of_assemble (Interpreter.create_ok h).1
  have hstep : ∀ m' : Machine, m'.program = m.program → m'.Acts Touch.SparesPc → m'.state.Homed m.program →
      m'.step.2.state.Homed m.program := by
    intro m' hp' hm' hs
    rw [← hp'] at hs ⊢
    exact step_homed hm' hs
  have htouch : ∀ s t, Touch.SparesPc t → State.Homed m.program s → (t.apply m.program.entry s).Homed m.program :=
    fun _ _ ht hs => hs.touch ht
  have hinit : m.Hosted Touch.SparesPc m.program (State.Homed m.program) :=
    ⟨rfl, acts_of_create h hh, create_homed h⟩
  have hafter := hinit.serveAll hstep htouch hrs
  refine ⟨items, hitems, hp.destinations_le.1, hp.destinations_le.2, hafter.program, ?_, ?_⟩
  · obtain ⟨hprog, hacts, hhomed⟩ := hafter
    rw [← hprog] at hp hhomed
    exact inside_of_homed hp hacts hhomed
  · intro n pc hlost
    obtain ⟨last, m', ⟨hprog, hacts, hhomed⟩, hfail⟩ := hinit.run_failed hstep htouch hrs hlost
    rw [← hprog] at hp hhomed
    obtain ⟨v, hv⟩ := inside_of_homed hp hacts hhomed
    obtain ⟨ins, trap, -, he⟩ := hv.failed _ _ hfail
    cases he

/-- The program saves, restores, assigns and jumps through `pc`, the host supplies a view of no program, and an
operation asks to halt. -/
theorem pc_stays_inside_own_writes : ∃ controller m rs,
    Source.readOne [⟨[], utf8 "((save pc) (restore pc) (assign pc (reg x)) (perform (op stop)) (goto (reg pc)))"⟩]
      .form = (some controller, none) ∧
    Machine.create 0 [utf8 "x"] ⟨[(utf8 "stop", Host.halt)]⟩ {} controller = .ok m ∧
    rs = [.touch (.write (utf8 "x") (.view {})), .run 3, .touch (.push (.view {})), .step] ∧
    (m.serveAll rs).state.executed = 4 ∧
    ∃ items, controller.items? = some items ∧ (∃ v, (m.serveAll rs).Inside items v) ∧
      ∀ n pc, ((m.serveAll rs).run n).1 ≠ .failed (.lost pc) := by
  refine ⟨_, ?machine, _, rfl, ?created, rfl, ?executed, (pc_stays_inside ?created ?host ?requests).imp
    fun items h => ⟨h.1, h.2.2.2.2.1, h.2.2.2.2.2⟩⟩
  case created => rfl
  case executed => rfl
  case host =>
    refine Table.acts_of_forall (List.forall_mem_singleton.mpr fun _ _ => ?_)
    exact ⟨[.halt], by simp [Touch.SparesPc], rfl⟩
  case requests =>
    have hx : utf8 "x" ≠ pcName := by decide
    simp [Request.Acts, Touch.SparesPc, hx]

end Machine

end RegisterMachine
