import RegisterMachine.Operation.Standard
import RegisterMachine.Proofs.Independence

/-!
# Walking through a program

A snapshot holds what is known of a machine at one moment.  Walking computes on snapshots what the machine does,
without the rest of its state.

* `Snapshot.step`, `Snapshot.walk`: instructions on snapshots.
* `State.Shows`: a snapshot is right about a state.
* `Machine.Follows`: the instructions of the machine and what its operations give.
* `Machine.Reaches n k k'`: wherever the machine shows `k`, it shows `k'` after `n` steps.  Walks and their
  combinations give such facts (`Follows.reaches`, `Reaches.trans`).
* `Reaches.run`: the run that ends behind the last instruction.
-/

namespace RegisterMachine

/-! ## Snapshots -/

/-- What is known of a machine at one moment: the offset of the next instruction, the values of some registers
other than `pc`, and the stack. -/
structure Snapshot where
  offset : Nat
  registers : List (Bytes × Value)
  stack : Stack

namespace Snapshot

/-- The value of a register, if it is known. -/
def read? (k : Snapshot) (name : Bytes) : Option Value := k.registers.lookup name

/-- A new value for a register that is known. -/
def write (k : Snapshot) (name : Bytes) (v : Value) : Snapshot :=
  { k with registers := setEntry name v k.registers }

/-- Another place in the program. -/
def jump (k : Snapshot) (offset : Nat) : Snapshot := { k with offset }

/-- The place where an instruction leads. -/
def follow (k : Snapshot) : Next → Snapshot
  | .behind => k.jump (k.offset + 1)
  | .offset i => k.jump i
  | .view u => k.jump u.offset

/-- What is known after a touch that an instruction makes by itself. -/
def touch (k : Snapshot) : Touch → Snapshot
  | .write name v => k.write name v
  | .push v => { k with stack := k.stack.push v }
  | .pop => { k with stack := (k.stack.pop?.map (·.2)).getD k.stack }
  | _ => k

section Walk

variable (p : Program) (ops : Bytes → List Value → Option Value)

/-- The value that an instruction needs, if it is known. -/
def value? (k : Snapshot) (code : Code) : Option Value :=
  match code.need p k.read? k.stack.top? with
  | .error _ => none
  | .ok (.value v) => some v
  | .ok (.call c) => (operandValues p k.read? c.name 0 c.args).toOption.bind (ops c.name)

/-- One instruction on what is known.  There is no result if the instruction fails or needs what is not known. -/
def step (k : Snapshot) (code : Code) : Option Snapshot := do
  let v ← k.value? p ops code
  return ((code.touches v).foldl touch k).follow (code.next v)

/-- `n` instructions of a program with these codes. -/
def walk (codes : List Code) : Nat → Snapshot → Option Snapshot
  | 0, k => some k
  | n + 1, k => do
    let code ← codes[k.offset]?
    let k ← k.step p ops code
    walk codes n k

end Walk

end Snapshot

/-! ## Views of a program -/

namespace Program

variable {p : Program} {offset : Nat}

theorem offset_view (h : offset ≤ p.size) : (p.view offset).offset = offset := Nat.min_eq_left h

theorem tail_view (h : offset < p.size) : (p.view offset).tail = p.view (offset + 1) := by
  have hlt : (p.view offset).offset < p.size := by rwa [offset_view (Nat.le_of_lt h)]
  rw [View.tail_of_lt hlt]
  unfold view
  congr 1
  simp only [Nat.min_eq_left (Nat.le_of_lt h), Nat.min_eq_left (Nat.succ_le_of_lt h)]

theorem view_offset {v : View} (h : v.layout = some p.layout) : p.view v.offset = v := by
  obtain ⟨l, offset, inside⟩ := v
  subst h
  have hmin : min offset p.size = offset := Nat.min_eq_left inside
  unfold view
  congr 1

end Program

/-! ## Snapshots that are right -/

theorem State.read?_pc {name : Bytes} (h : name ≠ pcName) (s : State) (v : Value) :
    State.read? { s with pc := v } name = s.read? name := by
  simp [State.read?, h]

/-- The snapshot is right about the state. -/
structure State.Shows (p : Program) (k : Snapshot) (s : State) : Prop where
  pc : s.pc = .view (p.view k.offset)
  registers : ∀ e ∈ k.registers, e.1 ≠ pcName ∧ s.read? e.1 = some e.2
  stack : s.stack = k.stack

/-- The snapshot of some registers that are there. -/
theorem State.shows_of_has {p : Program} {s : State} {offset : Nat} {names : List Bytes}
    (hpc : s.pc = .view (p.view offset)) (h : ∀ name ∈ names, name ≠ pcName ∧ s.has name = true) :
    s.Shows p ⟨offset, names.map fun name => (name, (s.read? name).getD .nil), s.stack⟩ := by
  refine ⟨hpc, fun e he => ?_, rfl⟩
  obtain ⟨name, hname, rfl⟩ := List.mem_map.mp he
  obtain ⟨hne, hhas⟩ := h name hname
  obtain ⟨v, hv⟩ := Option.isSome_iff_exists.mp hhas
  exact ⟨hne, by rw [hv, Option.getD_some]⟩

namespace State.Shows

variable {p : Program} {k : Snapshot} {s : State} {name : Bytes} {v : Value}

theorem read? (h : s.Shows p k) (hk : k.read? name = some v) : name ≠ pcName ∧ s.read? name = some v := by
  obtain ⟨before, after, hs, -⟩ := List.lookup_eq_some_iff.mp hk
  exact h.registers (name, v) (hs ▸ List.mem_append_right before List.mem_cons_self)

theorem has (h : s.Shows p k) (hk : k.read? name = some v) : s.has name = true := by
  rw [State.has, (h.read? hk).2, Option.isSome_some]

theorem jump (h : s.Shows p k) (offset : Nat) :
    Shows p (k.jump offset) { s with pc := .view (p.view offset) } where
  pc := rfl
  registers e he := by
    obtain ⟨hne, hr⟩ := h.registers e he
    exact ⟨hne, (State.read?_pc hne s _).trans hr⟩
  stack := h.stack

theorem setStack (h : s.Shows p k) (stack : Stack) : Shows p { k with stack } { s with stack } where
  pc := h.pc
  registers := h.registers
  stack := rfl

theorem write (h : s.Shows p k) (hne : name ≠ pcName) (hhas : s.has name = true) (v : Value) :
    (s.write name v).Shows p (k.write name v) := by
  have hpc : (s.write name v).pc = s.pc := by
    have hr := State.read?_write_of_ne hne.symm s v
    simpa [State.read?] using hr
  refine ⟨hpc.trans h.pc, fun e he => ?_, (State.stack_write s name v).trans h.stack⟩
  obtain ⟨e₀, he₀, rfl⟩ := List.mem_map.mp he
  obtain ⟨hne₀, hr₀⟩ := h.registers e₀ he₀
  by_cases heq : e₀.1 = name
  · subst heq
    simpa using ⟨hne₀, State.read?_write_self hhas v⟩
  · simpa [heq] using ⟨hne₀, (State.read?_write_of_ne heq s v).trans hr₀⟩

/-- The bookkeeping after an instruction shows the same, unless there was a request to halt. -/
theorem settle (h : s.Shows p k) (hquiet : s.halting = false) (index : Nat) :
    (Machine.settle p index s).Shows p k := by
  have hsettle : Machine.settle p index s = { s with
      executed := s.executed + 1, counts := s.counts.modify index (· + 1), coverage := s.coverage.set index } := by
    rw [Machine.settle, hquiet]
    rfl
  rw [hsettle]
  exact ⟨h.pc, h.registers, h.stack⟩

end State.Shows

/-! ## Instructions on what is known -/

section Execution

variable {p : Program} {find : Bytes → Option Operation} {ops : Bytes → List Value → Option Value}
  {k k' : Snapshot} {w : World}

/-- What `ops` says of an operation is what is found, and it leaves the world alone. -/
def Gives (find : Bytes → Option Operation) (ops : Bytes → List Value → Option Value) : Prop :=
  ∀ name args v, ops name args = some v → ∃ op, find name = some op ∧ ∀ w, op args w = (.value v, w)

/-- A value is known only if what the instruction needs is. -/
theorem need_of_value? {code : Code} {v : Value} (hk : k.value? p ops code = some v) :
    ∃ n, code.need p k.read? k.stack.top? = .ok n := by
  unfold Snapshot.value? at hk
  split at hk
  · cases hk
  · next hn => exact ⟨_, hn⟩
  · next hn => exact ⟨_, hn⟩

/-- The first phase gives the value that is known, and leaves the world alone. -/
theorem prepare_of_shows (hops : Gives find ops) {code : Code} {v : Value} (h : w.state.Shows p k)
    (hk : k.value? p ops code = some v) : prepare p find code w = (.ok v, w) := by
  have hmore : ∀ name v, k.read? name = some v → w.state.read? name = some v := fun _ _ hv => (h.read? hv).2
  have hneed {n : Need} (hn : code.need p k.read? k.stack.top? = .ok n) : w.state.need p code = .ok n :=
    Code.need_mono hmore (fun _ htop => by rw [h.stack, htop]) hn
  unfold Snapshot.value? at hk
  split at hk
  · cases hk
  · next u hn =>
    cases hk
    exact (Prepared.given (hneed hn)).eq
  · next c hn =>
    cases hargs : operandValues p k.read? c.name 0 c.args with
    | error e =>
      rw [hargs] at hk
      cases hk
    | ok args =>
      rw [hargs] at hk
      obtain ⟨op, hop, hgives⟩ := hops c.name args v hk
      rw [(Prepared.called (hneed hn) hop (operandValues_mono hmore hargs)).eq, hgives]
      rfl

/-- What is known after touches by an instruction that write to registers which are known. -/
theorem State.Shows.touched {s : State} (h : s.Shows p k) (entry : View) {ts : List Touch}
    (hts : ∀ t ∈ ts, t.ByInstruction) (hwrite : ∀ name v, .write name v ∈ ts → name ≠ pcName ∧ s.has name = true) :
    (s.touched entry ts).Shows p (ts.foldl Snapshot.touch k) := by
  induction ts generalizing s k with
  | nil => exact h
  | cons t ts ih =>
    obtain ⟨ht, hts'⟩ := List.forall_mem_cons.mp hts
    have hrest := fun name v hmem => hwrite name v (List.mem_cons_of_mem t hmem)
    cases t with
    | write name v =>
      obtain ⟨hne, hhas⟩ := hwrite name v List.mem_cons_self
      exact ih (h.write hne hhas v) hts' fun name' v' hmem =>
        ⟨(hrest name' v' hmem).1, (State.has_write s name name' v).trans (hrest name' v' hmem).2⟩
    | push v =>
      have hpush : State.Shows p (k.touch (.push v)) { s with stack := s.stack.push v } := by
        rw [h.stack]
        exact h.setStack _
      exact ih hpush hts' hrest
    | pop =>
      have hpop : State.Shows p (k.touch .pop) { s with stack := (s.stack.pop?.map (·.2)).getD s.stack } := by
        rw [h.stack]
        exact h.setStack _
      exact ih hpop hts' hrest
    | allocate | resetStack | halt | rewind | resetStats => cases ht

theorem Snapshot.offset_touches (ts : List Touch) (k : Snapshot) : (ts.foldl touch k).offset = k.offset := by
  induction ts generalizing k with
  | nil => rfl
  | cons t ts ih =>
    have hfirst : (k.touch t).offset = k.offset := by cases t <;> rfl
    exact (ih (k.touch t)).trans hfirst

/-- Where an instruction leads, as far as is known. -/
theorem State.Shows.follow {s : State} (h : s.Shows p k) (hlt : k.offset < p.size) {next : Next}
    (hnext : (next.from p (p.view k.offset)).layout = some p.layout) :
    State.Shows p (k.follow next) { s with pc := .view (next.from p (p.view k.offset)) } := by
  cases next with
  | behind =>
    have hjump := h.jump (k.offset + 1)
    rw [← Program.tail_view hlt] at hjump
    exact hjump
  | offset i => exact h.jump i
  | view u =>
    have hu : u.layout = some p.layout := hnext
    have hjump := h.jump u.offset
    rw [Program.view_offset hu] at hjump
    exact hjump

/-- **An instruction does what is computed on the snapshot**, asks for no halt and counts nothing. -/
theorem execute_of_shows (hops : Gives find ops) {code : Code} (hlt : k.offset < p.size) (h : w.state.Shows p k)
    (hk : k.step p ops code = some k') :
    ∃ w', execute p find (p.view k.offset) (some code) w = (.ok (), w') ∧ w'.state.Shows p k' ∧
      w'.state.halting = w.state.halting ∧ w'.state.executed = w.state.executed := by
  obtain ⟨v, hv, hk⟩ := Option.bind_eq_some_iff.mp hk
  obtain rfl := Option.some.inj hk
  obtain ⟨n, hn⟩ := need_of_value? hv
  have hprepare := prepare_of_shows hops h hv
  have hhere : (p.view k.offset).layout = some p.layout := rfl
  have hnext := next_of_prepare hprepare hhere
  have hwrite : ∀ name u, .write name u ∈ code.touches v → name ≠ pcName ∧ w.state.has name = true := by
    intro name u hmem
    rcases Code.target_of_write hmem with rfl | hsubject
    · exact ⟨by decide, rfl⟩
    · obtain ⟨x, hx⟩ := Code.read_of_need hn hsubject
      exact ⟨(h.read? hx).1, h.has hx⟩
  have hshows := h.touched p.entry (code.byInstruction_touches v) hwrite
  have hoffset := Snapshot.offset_touches (code.touches v) k
  rw [execute_eq, hprepare]
  refine ⟨_, rfl, ?_, commit_keeps p (p.view k.offset) code v w⟩
  rw [← hoffset] at hlt hnext
  have hfollow := hshows.follow hlt hnext
  rw [hoffset] at hfollow
  exact hfollow

end Execution

/-! ## Machines that walk -/

namespace Machine

variable {m : Machine} {codes : List Code} {ops : Bytes → List Value → Option Value} {n n' : Nat}
  {k k' k'' : Snapshot} {w : World}

/-- A step from a place in the program executes the instruction there. -/
theorem step_at_view {offset : Nat} {ins : Instruction} (hpc : w.state.pc = .view (m.program.view offset))
    (hi : m.program.instructions[offset]? = some ins) :
    step { m with world := w } = conclude { m with world := w } offset ins.text
        (execute m.program m.find (m.program.view offset) ins.code (quiet w)) ∧ offset < m.program.size := by
  have hlt : offset < m.program.size := (Array.getElem?_eq_some_iff.mp hi).1
  have hoff : (m.program.view offset).offset = offset := Program.offset_view (Nat.le_of_lt hlt)
  have hhere : here? { m with world := w } = some (m.program.view offset) := here?_eq_some_iff.mpr ⟨hpc, rfl⟩
  have hstep := step_at hhere (by rwa [hoff])
  rw [hoff] at hstep
  exact ⟨hstep, hlt⟩

/-- The machine has these instructions, and its operations give what `ops` says. -/
structure Follows (codes : List Code) (ops : Bytes → List Value → Option Value) (m : Machine) : Prop where
  codes : m.program.instructions.toList.map (·.code) = codes.map some
  ops : Gives m.find ops

theorem Follows.size (h : m.Follows codes ops) : m.program.size = codes.length := by
  have hlen := congrArg List.length h.codes
  rwa [List.length_map, List.length_map, Array.length_toList] at hlen

theorem Follows.fetched (h : m.Follows codes ops) {i : Nat} {code : Code} (hc : codes[i]? = some code) :
    ∃ ins, m.program.instructions[i]? = some ins ∧ ins.code = some code := by
  have hi : (m.program.instructions.toList.map (·.code))[i]? = some (some code) := by
    rw [h.codes, List.getElem?_map, hc, Option.map_some]
  rw [List.getElem?_map, Array.getElem?_toList] at hi
  exact Option.map_eq_some_iff.mp hi

/-- Wherever the machine shows `k`, `n` steps succeed and lead to where it shows `k'`. -/
def Reaches (m : Machine) (n : Nat) (k k' : Snapshot) : Prop :=
  ∀ w : World, w.state.Shows m.program k → ∃ w' : World,
    Advances n { m with world := w } { m with world := w' } ∧ w'.state.Shows m.program k' ∧
      w'.state.executed = w.state.executed + n

theorem Reaches.refl (m : Machine) (k : Snapshot) : m.Reaches 0 k k := fun w h => ⟨w, .refl _, h, rfl⟩

theorem Reaches.trans (h : m.Reaches n k k') (h' : m.Reaches n' k' k'') : m.Reaches (n + n') k k'' := by
  intro w hw
  obtain ⟨w₁, ha₁, hw₁, hx₁⟩ := h w hw
  obtain ⟨w₂, ha₂, hw₂, hx₂⟩ := h' w₁ hw₁
  exact ⟨w₂, ha₁.trans ha₂, hw₂, by rw [hx₂, hx₁, Nat.add_assoc]⟩

/-- **A step is right about the snapshot.** -/
theorem Follows.reaches_step (h : m.Follows codes ops) {code : Code} (hc : codes[k.offset]? = some code)
    (hk : k.step m.program ops code = some k') : m.Reaches 1 k k' := by
  intro w hw
  have hlt : k.offset < m.program.size := by
    rw [h.size]
    exact (List.getElem?_eq_some_iff.mp hc).1
  obtain ⟨ins, hi, hcode⟩ := h.fetched hc
  have hquiet : (quiet w).state.Shows m.program k := ⟨hw.pc, hw.registers, hw.stack⟩
  obtain ⟨w', hx, hw', hhalting, hexecuted⟩ := execute_of_shows h.ops hlt hquiet hk
  obtain ⟨hat, -⟩ := step_at_view hw.pc hi
  have hstep : step { m with world := w } =
      (.advanced, { m with world := { w' with state := settle m.program k.offset w'.state } }) := by
    have hx' : execute m.program m.find (m.program.view k.offset) ins.code (quiet w) =
        (.ok (), w') := by rwa [hcode]
    rw [hat, hx']
    rfl
  refine ⟨_, .step hstep (.refl _), hw'.settle hhalting k.offset, ?_⟩
  show w'.state.executed + 1 = _
  rw [hexecuted]
  rfl

/-- **Walking is right**: a walk on snapshots is what the machine does. -/
theorem Follows.reaches (h : m.Follows codes ops) (hk : k.walk m.program ops codes n = some k') :
    m.Reaches n k k' := by
  induction n generalizing k with
  | zero =>
    obtain rfl := Option.some.inj hk
    exact .refl m k
  | succ n ih =>
    obtain ⟨code, hc, hk⟩ := Option.bind_eq_some_iff.mp hk
    obtain ⟨k₁, hk₁, hk⟩ := Option.bind_eq_some_iff.mp hk
    rw [Nat.add_comm]
    exact (h.reaches_step hc hk₁).trans (ih hk)

/-- **A machine that reaches the end halts there**, whatever else it may still do. -/
theorem Reaches.run (h : m.Reaches n k k') (hend : k'.offset = m.program.size) (hw : w.state.Shows m.program k) :
    ∃ m' : Machine, (∀ limit, Machine.run (n + (limit + 1)) { m with world := w } = (.halted, n, m')) ∧
      m'.state.Shows m.program k' ∧ m'.state.executed = w.state.executed + n := by
  obtain ⟨w', ha, hw', hx⟩ := h w hw
  refine ⟨{ m with world := w' }, fun limit => ?_, hw', hx⟩
  have hdone : step { m with world := w' } = (.halted, { m with world := w' }) := by
    refine step_done (here?_eq_some_iff.mpr ⟨hw'.pc, rfl⟩) ?_
    rw [Program.offset_view (Nat.le_of_eq hend), hend]
    exact Array.getElem?_eq_none (Nat.le_refl _)
  rw [Machine.run, ha.runFrom, runFrom, hdone, Nat.zero_add]

end Machine

end RegisterMachine
