import RegisterMachine.Proofs.Refinement
import RegisterMachine.Proofs.StepPhases

/-!
# What a host can do to a machine

A host changes the state of a machine between steps, and the operations that it provides change it during a step.

* `Operation.Acts P`: an operation changes the state only by touches of which `P` holds.
* `Machine.StepEffect`, `Machine.step_effect`: a step is what an operation did, what the instruction did, and a
  jump inside the program; or, if it fails, what an operation did.
* `Request`, `Machine.serve`: what a host can ask a machine for.
-/

namespace RegisterMachine

/-! ## Operations that act by touches -/

/-- The operation changes the state only by touches of which `P` holds.  What it does with the console is its own
affair. -/
def Operation.Acts (P : Touch → Prop) (entry : View) (op : Operation) : Prop :=
  ∀ args w, ∃ ts : List Touch, (∀ t ∈ ts, P t) ∧ (op args w).2.state = w.state.touched entry ts

/-- All operations of the table act by such touches. -/
def Table.Acts (P : Touch → Prop) (entry : View) (t : Table) : Prop :=
  ∀ name op, t.lookup name = some op → op.Acts P entry

namespace Table

variable {t : Table} {P : Touch → Prop} {entry : View}

/-- What holds of all operations in the table holds of those that are found there. -/
theorem forall_lookup {Q : Operation → Prop} (h : ∀ e ∈ t.entries, Q e.2) {name : Bytes} {op : Operation}
    (hop : t.lookup name = some op) : Q op := by
  obtain ⟨before, after, hs, -⟩ := List.lookup_eq_some_iff.mp hop
  exact h (name, op) (hs ▸ List.mem_append_right before List.mem_cons_self)

theorem acts_of_forall (h : ∀ e ∈ t.entries, e.2.Acts P entry) : t.Acts P entry :=
  fun _ _ hop => forall_lookup h hop

theorem lookup_erase (t : Table) (name n : Bytes) :
    (t.erase name).lookup n = if n = name then none else t.lookup n := by
  unfold Table.erase Table.lookup
  induction t.entries with
  | nil => simp
  | cons e rest ih =>
    rw [List.filter_cons]
    by_cases he : e.1 = name
    · rw [if_neg (by simpa using he), ih, List.lookup_cons]
      by_cases hn : n = name
      · rw [if_pos hn, if_pos hn]
      · have hne : (n == e.1) = false := by simpa [he] using hn
        rw [if_neg hn, if_neg hn, hne]
    · rw [if_pos (by simpa using he), List.lookup_cons, List.lookup_cons, ih]
      by_cases hn : n = name
      · have hne : (n == e.1) = false := by simpa [hn] using fun h => he h.symm
        rw [if_pos hn, if_pos hn, hne]
      · rw [if_neg hn, if_neg hn]

theorem lookup_insert (t : Table) (name : Bytes) (op : Operation) (n : Bytes) :
    (t.insert name op).lookup n = if n = name then some op else t.lookup n := by
  show List.lookup n ((name, op) :: (t.erase name).entries) = _
  rw [List.lookup_cons]
  by_cases hn : n = name
  · rw [if_pos hn, hn, beq_self_eq_true]
  · have hne : (n == name) = false := by simpa using hn
    rw [if_neg hn, hne]
    have he := lookup_erase t name n
    rwa [if_neg hn] at he

theorem Acts.insert {name : Bytes} {op : Operation} (h : t.Acts P entry) (hop : op.Acts P entry) :
    (t.insert name op).Acts P entry := by
  intro n op' hl
  rw [lookup_insert] at hl
  split at hl
  · cases hl
    exact hop
  · exact h n op' hl

theorem Acts.erase {name : Bytes} (h : t.Acts P entry) : (t.erase name).Acts P entry := by
  intro n op hl
  rw [lookup_erase] at hl
  split at hl
  · cases hl
  · exact h n op hl

end Table

theorem emptyStack_acts {P : Touch → Prop} (h : P .resetStack) (entry : View) : emptyStack.Acts P entry :=
  fun _ _ => ⟨[.resetStack], List.forall_mem_singleton.mpr h, rfl⟩

/-! ## What a step does -/

namespace Machine

variable {P : Touch → Prop} {m : Machine}

/-- All operations of the machine act by such touches. -/
def Acts (P : Touch → Prop) (m : Machine) : Prop :=
  m.host.Acts P m.program.entry ∧ m.installed.Acts P m.program.entry

/-- What holds of the operations in the tables and of the built-in one holds of those that are found. -/
theorem forall_find {Q : Operation → Prop} (hi : ∀ name op, m.installed.lookup name = some op → Q op)
    (hh : ∀ name op, m.host.lookup name = some op → Q op) (hb : Q emptyStack) {name : Bytes} {op : Operation}
    (hop : m.find name = some op) : Q op := by
  rcases find_cases hop with hop | hop | ⟨-, rfl⟩
  · exact hi name op hop
  · exact hh name op hop
  · exact hb

theorem Acts.find (h : m.Acts P) (hP : P .resetStack) (name : Bytes) (op : Operation)
    (hop : m.find name = some op) : op.Acts P m.program.entry :=
  forall_find h.2 h.1 (emptyStack_acts hP _) hop

theorem acts_of_create {serial : Nat} {registers : List Bytes} {host : Table} {console : Console}
    {controller : Form}
    (h : Machine.create serial registers host console controller = .ok m) (hh : host.Acts P m.program.entry) :
    m.Acts P := by
  obtain ⟨-, hhost, hin, -⟩ := Interpreter.create_ok h
  refine ⟨hhost ▸ hh, ?_⟩
  rw [hin]
  exact Table.acts_of_forall fun _ he => absurd he List.not_mem_nil

/-- What a step leaves behind.  Its touches start from a state without a request to halt. -/
inductive StepEffect (P : Touch → Prop) (m : Machine) : Step × Machine → Prop
  | lost (h : m.here? = none) : StepEffect P m (.failed (.lost m.state.pc), m)
  | halted {here : View} (h : m.here? = some here) (hi : m.program.instructions[here.offset]? = none) :
    StepEffect P m (.halted, m)
  | failed {here : View} {ins : Instruction} {trap : Trap} {ts : List Touch} {w : World} (h : m.here? = some here)
    (hi : m.program.instructions[here.offset]? = some ins) (hts : ∀ t ∈ ts, P t)
    (hw : w.state = { (quiet m.world).state.touched m.program.entry ts with halting := false }) :
    StepEffect P m (.failed (.trapped here.offset ins.text trap), { m with world := w })
  | advanced {here u : View} {ins : Instruction} {ts : List Touch} {w : World} (h : m.here? = some here)
    (hi : m.program.instructions[here.offset]? = some ins) (hts : ∀ t ∈ ts, P t ∨ t.ByInstruction)
    (hu : u.layout = some m.program.layout)
    (hw : w.state =
      settle m.program here.offset { (quiet m.world).state.touched m.program.entry ts with pc := .view u }) :
    StepEffect P m (.advanced, { m with world := w })

/-- In the first phase of a step there are only the touches of an operation. -/
theorem Acts.called (hm : m.Acts P) (hP : P .resetStack) : ∃ ts : List Touch, (∀ t ∈ ts, P t) ∧
    m.called.state = (quiet m.world).state.touched m.program.entry ts ∧ (m.invoked? = none → ts = []) := by
  unfold Machine.called
  cases hop : m.invoked? with
  | none => exact ⟨[], List.forall_mem_nil _, rfl, fun _ => rfl⟩
  | some call =>
    obtain ⟨name, hfind⟩ := find_of_invoked hop
    obtain ⟨ts, hts, hcalled⟩ := hm.find hP name call.1 hfind call.2 (quiet m.world)
    exact ⟨ts, hts, hcalled, fun hnone => absurd hnone (Option.some_ne_none _)⟩

/-- **What one step does.** -/
theorem step_effect (hm : m.Acts P) (hP : P .resetStack) : StepEffect P m m.step := by
  obtain ⟨ts, hts, hcalled, -⟩ := hm.called hP
  have hs := step_phases m
  generalize m.step = r at hs ⊢
  cases hs with
  | lost h => exact .lost h
  | halted h hi => exact .halted h hi
  | failed h hi =>
    refine .failed h hi hts ?_
    rw [← hcalled]
    rfl
  | advanced h hi hown hu =>
    have hboth : ∀ t ∈ ts ++ m.own, P t ∨ t.ByInstruction :=
      List.forall_mem_append.mpr ⟨fun t ht => .inl (hts t ht), fun t ht => .inr (hown t ht)⟩
    refine .advanced h hi hboth hu ?_
    rw [State.touched_append, ← hcalled]

end Machine

/-! ## Requests -/

/-- What a host can ask a machine for between steps. -/
inductive Request where
  | step
  | run (limit : Nat)
  | install (name : Bytes) (op : Operation)
  | uninstall (name : Bytes)
  | touch (t : Touch)

/-- What comes from the host with a request, an operation or a touch, keeps to touches of which `P` holds. -/
def Request.Acts (P : Touch → Prop) (entry : View) : Request → Prop
  | install _ op => op.Acts P entry
  | touch t => P t
  | _ => True

namespace Machine

variable {P : Touch → Prop} {m : Machine}

/-- The machine after a request. -/
def serve (m : Machine) : Request → Machine
  | .step => m.step.2
  | .run limit => (m.run limit).2.2
  | .install name op => m.install name op
  | .uninstall name => m.uninstall name
  | .touch t => m.withState (t.apply m.program.entry m.state)

example (m : Machine) : m.serve (.touch .halt) = m.halt := rfl

example (m : Machine) : m.serve (.touch .rewind) = m.rewind := rfl

example (m : Machine) : m.serve (.touch .resetStats) = m.resetStats := rfl

/-- The machine after some requests. -/
def serveAll (m : Machine) (rs : List Request) : Machine := rs.foldl serve m

theorem Acts.step (h : m.Acts P) : m.step.2.program = m.program ∧ m.step.2.Acts P := by
  rw [step_world]
  exact ⟨rfl, h⟩

/-- The machine runs the program `p`, its operations act by touches of which `P` holds, and its state satisfies
`I`. -/
structure Hosted (P : Touch → Prop) (p : Program) (I : State → Prop) (m : Machine) : Prop where
  program : m.program = p
  acts : m.Acts P
  state : I m.state

section Keeps

variable {I : State → Prop} {p : Program}
  (hstep : ∀ m : Machine, m.program = p → m.Acts P → I m.state → I m.step.2.state)
  (htouch : ∀ s t, P t → I s → I (t.apply p.entry s))
include hstep

theorem Hosted.step (h : m.Hosted P p I) : m.step.2.Hosted P p I := by
  obtain ⟨hp, hm, hs⟩ := h
  exact ⟨hm.step.1.trans hp, hm.step.2, hstep m hp hm hs⟩

include htouch

/-- **What steps and touches keep, requests keep.** -/
theorem Hosted.serveAll {rs : List Request} (hrs : ∀ r ∈ rs, r.Acts P p.entry) (h : m.Hosted P p I) :
    (m.serveAll rs).Hosted P p I := by
  induction rs generalizing m with
  | nil => exact h
  | cons r rs ih =>
    obtain ⟨hr, hrs⟩ := List.forall_mem_cons.mp hrs
    refine ih hrs ?_
    obtain ⟨hp, hm, hs⟩ := h
    cases r with
    | step => exact Hosted.step hstep ⟨hp, hm, hs⟩
    | run n => exact run_keeps (fun _ => Hosted.step hstep) n ⟨hp, hm, hs⟩
    | install name op => exact ⟨hp, ⟨hm.1, hm.2.insert (hp ▸ hr)⟩, hs⟩
    | uninstall name => exact ⟨hp, ⟨hm.1, hm.2.erase⟩, hs⟩
    | touch t =>
      refine ⟨hp, hm, ?_⟩
      show I (t.apply m.program.entry m.state)
      rw [hp]
      exact htouch _ t hr hs

/-- What steps and touches keep holds where a run fails after some requests. -/
theorem Hosted.run_failed {rs : List Request} (hrs : ∀ r ∈ rs, r.Acts P p.entry) (h : m.Hosted P p I) {n : Nat}
    {e : RuntimeError} (hfail : ((m.serveAll rs).run n).1 = .failed e) :
    ∃ last m', Hosted P p I last ∧ last.step = (.failed e, m') :=
  run_failed_keeps (fun _ => Hosted.step hstep) (h.serveAll hstep htouch hrs) hfail

end Keeps

end Machine

end RegisterMachine
