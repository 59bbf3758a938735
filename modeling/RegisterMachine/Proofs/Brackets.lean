import RegisterMachine.Command.Basic
import RegisterMachine.Proofs.StandardOperations

/-!
# Saving and restoring around balanced code

Straight-line code that takes no value from below the place on the stack where it starts does not see what lies
there.  So it runs under a saved value as it runs without.

* `Program.Holds`: instructions at a place in a program.
* `Code.depth?`, `depthAfter?`, `Balanced`: how far the stack is above the place where straight-line code starts.
* `Beneath s v d w u`: the worlds are the same, but for the value `v` that lies in `w` under the first `d` values
  of the stack and above the stack of `s`.
* `execute_beneath`, `Machine.step_beneath`, `Machine.advances_beneath`: an instruction, a step and straight-line
  code in both worlds.
* `Machine.bracket_restores`: balanced code between `save` and `restore`.
-/

namespace RegisterMachine

/-! ## Straight-line code -/

/-- The program holds these instructions from an offset on. -/
def Program.Holds (p : Program) : Nat → List Code → Prop
  | _, [] => True
  | offset, code :: rest =>
    (∃ ins, p.instructions[offset]? = some ins ∧ ins.code = some code) ∧ p.Holds (offset + 1) rest

theorem Program.holds_append {p : Program} {offset : Nat} {codes codes' : List Code} :
    p.Holds offset (codes ++ codes') ↔ p.Holds offset codes ∧ p.Holds (offset + codes.length) codes' := by
  induction codes generalizing offset with
  | nil =>
    rw [Program.Holds, true_and]
    rfl
  | cons code codes ih =>
    have hlen : offset + 1 + codes.length = offset + (code :: codes).length := by
      rw [List.length_cons]
      omega
    rw [List.cons_append, Program.Holds, Program.Holds, ih, and_assoc, hlen]

theorem Program.holds_of_fetched {p : Program} {offset : Nat} {codes : List Code}
    (h : ∀ i code, codes[i]? = some code →
      ∃ ins, p.instructions[offset + i]? = some ins ∧ ins.code = some code) : p.Holds offset codes := by
  induction codes generalizing offset with
  | nil => trivial
  | cons code codes ih =>
    refine ⟨h 0 code rfl, ih fun i code' hi => ?_⟩
    rw [Nat.add_assoc, Nat.add_comm 1]
    exact h (i + 1) code' hi

/-- The depth of the stack after an instruction, counted from where straight-line code starts.  There is none for a
jump, and none if the instruction takes a value from below that place. -/
def Code.depth? : Code → Nat → Option Nat
  | .assign .., d => some d
  | .test _, d => some d
  | .perform _, d => some d
  | .save _, d => some (d + 1)
  | .restore _, 0 => none
  | .restore _, d + 1 => some d
  | .branch .., _ => none
  | .goto .., _ => none
  | .gotoReg _, _ => none

/-- The depth after some instructions. -/
def depthAfter? : List Code → Nat → Option Nat
  | [], d => some d
  | code :: rest, d => (code.depth? d).bind (depthAfter? rest)

/-- Straight-line code that ends at the depth where it starts and never takes a value from below. -/
def Balanced (body : List Code) : Prop := depthAfter? body 0 = some 0

/-- Operations that some code calls leave the state of the machine alone. -/
def Code.CallsDetached (find : Bytes → Option Operation) (code : Code) : Prop :=
  ∀ name op, code.calls name = true → find name = some op → op.Detached

/-- Tables of such operations are enough, if the code does not call the operation that every machine has. -/
theorem Code.callsDetached_of_tables {m : Machine} (hh : m.host.Detached) (hi : m.installed.Detached) {code : Code}
    (hinit : code.calls (utf8 "initialize") = false) : code.CallsDetached m.find := by
  intro name op hcall hfind
  rcases Machine.find_cases hfind with hop | hop | ⟨rfl, -⟩
  · exact hi name op hop
  · exact hh name op hop
  · rw [hinit] at hcall
    cases hcall

/-! ## A value beneath the rest -/

/-- The two worlds are the same, but for a value `v` in the first one.  It lies between `d` values on top, which
are the same in both, and the stack of `s`.  Statistics may differ. -/
structure Beneath (s : State) (v : Value) (d : Nat) (w u : World) : Prop where
  console : w.console = u.console
  pc : w.state.pc = u.state.pc
  flag : w.state.flag = u.state.flag
  registers : w.state.registers = u.state.registers
  names : w.state.names = s.names
  stack : ∃ top : List Value, top.length = d ∧ w.state.stack.values = top ++ v :: s.stack.values ∧
    u.state.stack.values = top ++ s.stack.values
  quiet : w.state.halting = false ∧ u.state.halting = false

namespace Beneath

variable {s : State} {v : Value} {d : Nat} {w u : World}

theorem read? (h : Beneath s v d w u) (name : Bytes) : w.state.read? name = u.state.read? name := by
  unfold State.read?
  rw [h.pc, h.flag, h.registers]

theorem write (h : Beneath s v d w u) (name : Bytes) (x : Value) :
    Beneath s v d (w.write name x) (u.write name x) where
  console := h.console
  pc := by
    have hpc := h.pc
    simp only [World.write, State.write]
    split
    · rfl
    split <;> exact hpc
  flag := by
    have hflag := h.flag
    simp only [World.write, State.write]
    split
    · exact hflag
    split
    · rfl
    · exact hflag
  registers := by
    have hregisters := h.registers
    simp only [World.write, State.write]
    split
    · exact hregisters
    split
    · exact hregisters
    · exact congrArg (setEntry name x) hregisters
  names := (State.names_write w.state name x).trans h.names
  stack := by
    have hw := State.stack_write w.state name x
    have hu := State.stack_write u.state name x
    obtain ⟨top, hlen, hws, hus⟩ := h.stack
    exact ⟨top, hlen, (congrArg Stack.values hw).trans hws, (congrArg Stack.values hu).trans hus⟩
  quiet := ⟨(State.halting_write ..).trans h.quiet.1, (State.halting_write ..).trans h.quiet.2⟩

theorem jump (h : Beneath s v d w u) (next : View) : Beneath s v d (w.jump next) (u.jump next) :=
  { h with pc := rfl }

theorem push (h : Beneath s v d w u) (x : Value) :
    Beneath s v (d + 1) (w.setStack (w.state.stack.push x)) (u.setStack (u.state.stack.push x)) := by
  obtain ⟨top, hlen, hw, hu⟩ := h.stack
  refine { h with stack := ⟨x :: top, by rw [List.length_cons, hlen], ?_, ?_⟩ }
  · exact congrArg (x :: ·) hw
  · exact congrArg (x :: ·) hu

/-- A value on top is the same in both worlds. -/
theorem pop (h : Beneath s v (d + 1) w u) : ∃ x t t', w.state.stack.pop? = some (x, t) ∧
    u.state.stack.pop? = some (x, t') ∧ Beneath s v d (w.setStack t) (u.setStack t') := by
  obtain ⟨top, hlen, hw, hu⟩ := h.stack
  obtain ⟨x, top, rfl⟩ := List.exists_cons_of_length_eq_add_one hlen
  obtain ⟨t, ht, htv⟩ := Stack.pop?_cons hw
  obtain ⟨t', ht', htv'⟩ := Stack.pop?_cons hu
  exact ⟨x, t, t', ht, ht', { h with stack := ⟨top, Nat.succ.inj hlen, htv, htv'⟩ }⟩

/-- The bookkeeping after an instruction. -/
theorem settle (h : Beneath s v d w u) (p : Program) (index : Nat) :
    Beneath s v d { w with state := Machine.settle p index w.state }
      { u with state := Machine.settle p index u.state } where
  console := h.console
  pc := by
    simp only [Machine.settle, h.quiet.1, h.quiet.2]
    exact h.pc
  flag := h.flag
  registers := h.registers
  names := h.names
  stack := h.stack
  quiet := ⟨rfl, rfl⟩

theorem quieted (h : Beneath s v d w u) : Beneath s v d (Machine.quiet w) (Machine.quiet u) :=
  { h with quiet := ⟨rfl, rfl⟩ }

end Beneath

/-! ## One instruction in both worlds -/

theorem Code.calls_of_need {program : Program} {code : Code} {s : State} {c : Call}
    (h : s.need program code = .ok (.call c)) : code.calls c.name = true := by
  have hcall := Code.call_of_need h
  unfold Code.call? at hcall
  split at hcall <;> cases hcall <;> exact beq_self_eq_true _

section Execution

variable {p : Program} {find : Bytes → Option Operation} {s : State} {v : Value} {d d' : Nat} {w u : World}

/-- An operation that leaves the state alone does the same in both worlds. -/
theorem Operation.Detached.beneath {op : Operation} (hop : op.Detached) (h : Beneath s v d w u) :
    op.Paired (Beneath s v d) w u op := by
  obtain ⟨f, hf⟩ := hop
  intro args
  have hw : op args w = ((f args w.console).1, ⟨w.state, (f args w.console).2⟩) := hf args w.state w.console
  have hu : op args u = ((f args u.console).1, ⟨u.state, (f args u.console).2⟩) := hf args u.state u.console
  rw [hw, hu, h.console]
  exact ⟨rfl, { h with console := rfl }⟩

/-- The second phase of an instruction of straight-line code in both worlds, which go on behind it. -/
theorem Beneath.committed {code : Code} (hd : code.depth? d = some d') (h : Beneath s v d w u) (here : View)
    (x : Value) :
    Beneath s v d' (commit p here code x w) (commit p here code x u) ∧
      (commit p here code x w).state.pc = .view here.tail := by
  cases code with
  | assign target _ =>
    obtain rfl := Option.some.inj hd
    exact ⟨(h.write target x).jump _, rfl⟩
  | test c =>
    obtain rfl := Option.some.inj hd
    exact ⟨(h.write flagName x).jump _, rfl⟩
  | perform c =>
    obtain rfl := Option.some.inj hd
    exact ⟨h.jump _, rfl⟩
  | save name =>
    obtain rfl := Option.some.inj hd
    exact ⟨(h.push x).jump _, rfl⟩
  | restore name =>
    cases d with
    | zero => cases hd
    | succ d =>
      obtain rfl := Option.some.inj hd
      obtain ⟨y, t, t', hw, hu, h'⟩ := h.pop
      have hcommitted := (h'.write name x).jump here.tail
      have htw : t = (w.state.stack.pop?.map (·.2)).getD w.state.stack := by rw [hw]; rfl
      have htu : t' = (u.state.stack.pop?.map (·.2)).getD u.state.stack := by rw [hu]; rfl
      rw [htw, htu] at hcommitted
      exact ⟨hcommitted, rfl⟩
  | branch => cases hd
  | goto => cases hd
  | gotoReg => cases hd

/-- **An instruction of straight-line code does the same in both worlds**, and both go on behind it. -/
theorem execute_beneath {code : Code} (hops : code.CallsDetached find) (hd : code.depth? d = some d')
    (h : Beneath s v d w u) (here : View) :
    Paired (Beneath s v d) (fun w' u' => Beneath s v d' w' u' ∧ w'.state.pc = .view here.tail)
      (execute p find here (some code) w) (execute p find here (some code) u) := by
  refine execute_paired (fun name _ => h.read? name) ?_ (fun c hneed => ?_) h
    fun x a b hab => hab.committed hd here x
  · -- a value that is taken from the stack lies above the place where the worlds differ
    rintro name rfl
    cases d with
    | zero => cases hd
    | succ d =>
      obtain ⟨x, t, t', hw, hu, -⟩ := h.pop
      rw [Stack.top?, Stack.top?, hw, hu]
      rfl
  · cases hop : find c.name with
    | none => exact .none
    | some op => exact .some ((hops c.name op (Code.calls_of_need hneed) hop).beneath h)

end Execution

/-! ## Straight-line code in both worlds -/

namespace Machine

variable {m : Machine} {s : State} {v : Value} {d d' offset : Nat} {w u : World}

/-- **A step in both worlds**: both fail, or both succeed and stand behind the instruction. -/
theorem step_beneath {code : Code}
    (hins : ∃ ins, m.program.instructions[offset]? = some ins ∧ ins.code = some code)
    (hops : code.CallsDetached m.find) (hd : code.depth? d = some d')
    (hpc : w.state.pc = .view (m.program.view offset)) (h : Beneath s v d (quiet w) (quiet u)) :
    (∃ e w' u', step { m with world := w } = (.failed e, { m with world := w' }) ∧
      step { m with world := u } = (.failed e, { m with world := u' })) ∨
    ∃ w' u', step { m with world := w } = (.advanced, { m with world := w' }) ∧
      step { m with world := u } = (.advanced, { m with world := u' }) ∧ Beneath s v d' (quiet w') (quiet u') ∧
      w'.state.pc = .view (m.program.view (offset + 1)) := by
  obtain ⟨ins, hi, hcode⟩ := hins
  have hpc' : u.state.pc = .view (m.program.view offset) := h.pc.symm.trans hpc
  obtain ⟨hw, hlt⟩ := step_at_view hpc hi
  obtain ⟨hu, -⟩ := step_at_view hpc' hi
  have hx := execute_beneath (p := m.program) hops hd h (m.program.view offset)
  rw [← hcode, Program.tail_view hlt] at hx
  rw [hw, hu]
  generalize execute m.program m.find (m.program.view offset) ins.code (quiet w) = x at hx
  generalize execute m.program m.find (m.program.view offset) ins.code (quiet u) = y at hx
  cases hx with
  | error e => exact .inl ⟨_, _, _, rfl, rfl⟩
  | @ok _ w' u' hafter =>
    obtain ⟨hbeneath, hnext⟩ := hafter
    have hpc₁ : (settle m.program offset w'.state).pc = .view (m.program.view (offset + 1)) := by
      rw [settle, hbeneath.quiet.1]
      exact hnext
    exact .inr ⟨_, _, rfl, rfl, (hbeneath.settle m.program _).quieted, hpc₁⟩

/-- **Straight-line code in both worlds**: it fails in both, or in none. -/
theorem advances_beneath {body : List Code} (hcodes : m.program.Holds offset body)
    (hops : ∀ code ∈ body, code.CallsDetached m.find) (hd : depthAfter? body d = some d')
    (hpc : w.state.pc = .view (m.program.view offset)) (h : Beneath s v d (quiet w) (quiet u)) :
    (∃ e, (run body.length { m with world := w }).1 = .failed e ∧
      (run body.length { m with world := u }).1 = .failed e) ∨
    ∃ w' u', Advances body.length { m with world := w } { m with world := w' } ∧
      Advances body.length { m with world := u } { m with world := u' } ∧ Beneath s v d' (quiet w') (quiet u') ∧
      w'.state.pc = .view (m.program.view (offset + body.length)) := by
  induction body generalizing d offset w u with
  | nil =>
    obtain rfl := Option.some.inj hd
    exact .inr ⟨w, u, .refl _, .refl _, h, hpc⟩
  | cons code body ih =>
    obtain ⟨d₁, hd₁, hd⟩ := Option.bind_eq_some_iff.mp hd
    obtain ⟨hcode, hops⟩ := List.forall_mem_cons.mp hops
    rcases step_beneath hcodes.1 hcode hd₁ hpc h with ⟨e, w₁, u₁, hw, hu⟩ | ⟨w₁, u₁, hw, hu, h₁, hpc₁⟩
    · exact .inl ⟨e, run_of_failed hw, run_of_failed hu⟩
    · have hlen : (code :: body).length = 1 + body.length := Nat.add_comm ..
      have hw₁ : Advances 1 { m with world := w } { m with world := w₁ } := .step hw (.refl _)
      have hu₁ : Advances 1 { m with world := u } { m with world := u₁ } := .step hu (.refl _)
      rw [hlen, hw₁.run_fst, hu₁.run_fst, ← Nat.add_assoc]
      rcases ih hcodes.2 hops hd hpc₁ h₁ with hfailed | ⟨w', u', hw', hu', h', hpc'⟩
      · exact .inl hfailed
      · exact .inr ⟨w', u', hw₁.trans hw', hu₁.trans hu', h', hpc'⟩

/-! ## The bracket -/

/-- The machine at another place in its program. -/
def moved (m : Machine) (offset : Nat) : Machine :=
  m.withState { m.state with pc := .view (m.program.view offset) }

/-- A saved value lies beneath what comes next. -/
theorem step_save {r : Bytes}
    (hins : ∃ ins, m.program.instructions[offset]? = some ins ∧ ins.code = some (.save r))
    (hpc : m.state.pc = .view (m.program.view offset)) (hr : m.state.read? r = some v) :
    ∃ w, m.step = (.advanced, { m with world := w }) ∧ w.state.pc = .view (m.program.view (offset + 1)) ∧
      Beneath m.state v 0 (quiet w) (quiet (m.moved (offset + 1)).world) := by
  obtain ⟨ins, hi, hcode⟩ := hins
  obtain ⟨hat, hlt⟩ := step_at_view hpc hi
  have hread : (quiet m.world).state.read? r = some v := hr
  have hx : execute m.program m.find (m.program.view offset) ins.code (quiet m.world) =
      (.ok (), ((quiet m.world).setStack (m.state.stack.push v)).jump (m.program.view (offset + 1))) := by
    rw [hcode, execute, registerValue, hread, Program.tail_view hlt]
    rfl
  rw [hat, hx]
  refine ⟨_, rfl, rfl, ?_⟩
  exact ⟨rfl, rfl, rfl, rfl, rfl, ⟨[], rfl, rfl, rfl⟩, rfl, rfl⟩

/-- The bookkeeping after an instruction changes no register other than `pc`. -/
theorem read?_settle {x : Bytes} (hx : x ≠ pcName) (p : Program) (index : Nat) (s : State) :
    (settle p index s).read? x = s.read? x := by
  simp [settle, State.read?, hx]

/-- A value on top is restored, and nothing else changes. -/
theorem step_restore {r : Bytes} {below : List Value}
    (hins : ∃ ins, m.program.instructions[offset]? = some ins ∧ ins.code = some (.restore r))
    (hpc : m.state.pc = .view (m.program.view offset)) (hr : m.state.has r = true) (hne : r ≠ pcName)
    (hstack : m.state.stack.values = v :: below) :
    ∃ m', m.step = (.advanced, m') ∧ m'.state.stack.values = below ∧ m'.state.read? r = some v ∧
      (∀ x, x ≠ pcName → x ≠ r → m'.state.read? x = m.state.read? x) ∧
      m'.state.pc = .view (m.program.view (offset + 1)) := by
  obtain ⟨ins, hi, hcode⟩ := hins
  obtain ⟨hat, hlt⟩ := step_at_view hpc hi
  obtain ⟨x, hx⟩ := Option.isSome_iff_exists.mp hr
  obtain ⟨t, ht, htv⟩ := Stack.pop?_cons hstack
  have hread : (quiet m.world).state.read? r = some x := hx
  have hpop : (quiet m.world).state.stack.pop? = some (v, t) := ht
  have hx : execute m.program m.find (m.program.view offset) ins.code (quiet m.world) =
      (.ok (), (((quiet m.world).setStack t).write r v).jump (m.program.view (offset + 1))) := by
    rw [hcode, execute, registerValue, hread, hpop, Program.tail_view hlt]
  let before : State := ((quiet m.world).setStack t).state
  have hhas : before.has r = true := hr
  have hquiet : (before.write r v).halting = false := State.halting_write ..
  rw [hat, hx]
  refine ⟨_, rfl, ?_, ?_, fun y hy hyr => ?_, ?_⟩
  · exact (congrArg Stack.values (State.stack_write before r v)).trans htv
  · exact (read?_settle hne _ _ _).trans ((State.read?_pc hne _ _).trans (State.read?_write_self hhas v))
  · exact (read?_settle hy _ _ _).trans ((State.read?_pc hy _ _).trans (State.read?_write_of_ne hyr before v))
  · exact if_neg (by rw [Bool.not_eq_true]; exact hquiet)

/-- **Saving and restoring around balanced code.**  Straight-line code that is balanced and calls only operations
that leave the machine alone fails between `save` and `restore` if and only if it fails without them.  If it does
not, the stack and the register are afterwards as they were before, and all other registers but `pc` are as the
code leaves them without the bracket. -/
theorem bracket_restores {m : Machine} {offset : Nat} {r : Bytes} {body : List Code} (hne : r ≠ pcName)
    (hr : m.state.has r = true) (hpc : m.state.pc = .view (m.program.view offset))
    (hcodes : m.program.Holds offset (.save r :: (body ++ [.restore r]))) (hbody : Balanced body)
    (hops : ∀ code ∈ body, code.CallsDetached m.find) :
    ((∃ e, (m.run (body.length + 1)).1 = .failed e) ↔
      ∃ e, ((m.moved (offset + 1)).run body.length).1 = .failed e) ∧
    ((∀ e, (m.run (body.length + 1)).1 ≠ .failed e) → ∃ m' bare,
      m.run (body.length + 2) = (.unfinished, body.length + 2, m') ∧
      (m.moved (offset + 1)).run body.length = (.unfinished, body.length, bare) ∧
      m'.state.stack.values = m.state.stack.values ∧ m'.state.stack.depth = m.state.stack.depth ∧
      m'.state.read? r = m.state.read? r ∧
      (∀ x, x ≠ pcName → x ≠ r → m'.state.read? x = bare.state.read? x) ∧
      m'.state.pc = .view (m.program.view (offset + body.length + 2))) := by
  obtain ⟨v, hv⟩ := Option.isSome_iff_exists.mp hr
  obtain ⟨hsave, hrest⟩ := hcodes
  obtain ⟨hholds, hrestore, -⟩ := Program.holds_append.mp hrest
  obtain ⟨w, hstep, hpcw, hbeneath⟩ := step_save hsave hpc hv
  have hsaved : Advances 1 m { m with world := w } := .step hstep (.refl _)
  rw [Nat.add_comm body.length 1, hsaved.run_fst]
  rcases advances_beneath hholds hops hbody hpcw hbeneath with ⟨e, hw, hu⟩ | ⟨w', u', hw, hu, hafter, hpcw'⟩
  · -- the body fails in both worlds
    exact ⟨⟨fun _ => ⟨e, hu⟩, fun _ => ⟨e, hw⟩⟩, fun hok => absurd hw (hok e)⟩
  · have hunfinished := hw.run
    have hunfinished' :
        (m.moved (offset + 1)).run body.length = (.unfinished, body.length, { m with world := u' }) := hu.run
    rw [hunfinished, hunfinished']
    refine ⟨⟨?_, ?_⟩, fun _ => ?_⟩
    · rintro ⟨e, he⟩
      cases he
    · rintro ⟨e, he⟩
      cases he
    · have hnames : w'.state.names = m.state.names := hafter.names
      have hr' : w'.state.has r = true := by
        rw [State.has_iff, hnames, ← State.has_iff]
        exact hr
      obtain ⟨top, htop, hstack, -⟩ := hafter.stack
      obtain rfl := List.length_eq_zero_iff.mp htop
      obtain ⟨m', hrestored, hvalues, hread, hothers, hpc'⟩ :=
        step_restore (m := { m with world := w' }) hrestore hpcw' hr' hne hstack
      have hall : Advances (1 + body.length + 1) m m' := (hsaved.trans hw).trans (.step hrestored (.refl _))
      rw [Nat.add_comm 1 body.length] at hall
      refine ⟨m', { m with world := u' }, hall.run, rfl, hvalues, ?_, hread.trans hv.symm, fun x hx hxr => ?_, ?_⟩
      · rw [Stack.depth_eq, Stack.depth_eq, hvalues]
      · exact (hothers x hx hxr).trans (hafter.read? x)
      · rw [hpc', Nat.add_right_comm offset 1]

/-- Code in a bracket that overwrites the register of the bracket and restores into other registers than
it saved. -/
def crossedText : Bytes := join [byte ' '] [
  "((save a)",
  "(save b) (assign a (op +) (reg a) (reg b)) (save a) (restore b) (restore a)",
  "(restore a))"]

theorem bracket_restores_crossed : ∃ m₀ m m' bare,
    Machine.compile 0 ⟨[], crossedText⟩ none .standard {} = .ok m₀ ∧
    m₀.writeAll [(utf8 "a", .int 1), (utf8 "b", .int 2)] = (.ok (), m) ∧
    m.run 7 = (.unfinished, 7, m') ∧ (m.moved 1).run 5 = (.unfinished, 5, bare) ∧
    m'.state.stack.values = [] ∧ m'.state.read? (utf8 "a") = some (.int 1) ∧
    m'.state.read? (utf8 "b") = bare.state.read? (utf8 "b") := by
  let body : List Code :=
    [.save "b", .assign "a" (some (.call ⟨"+", [.reg "a", .reg "b"]⟩)), .save "a", .restore "b", .restore "a"]
  obtain ⟨m₀, m, hcompile, hwrite, hpc, hcodes, hrun, hhost, hinstalled, ha, hstack⟩ : ∃ m₀ m,
      Machine.compile 0 ⟨[], crossedText⟩ none .standard {} = .ok m₀ ∧
      m₀.writeAll [(utf8 "a", .int 1), (utf8 "b", .int 2)] = (.ok (), m) ∧
      m.state.pc = .view (m.program.view 0) ∧
      m.program.instructions.toList.map (·.code) = (.save "a" :: (body ++ [.restore "a"])).map some ∧
      (m.run 6).1 = .unfinished ∧ m.host = .standard ∧ m.installed = {} ∧
      m.state.read? (utf8 "a") = some (.int 1) ∧ m.state.stack.values = [] :=
    ⟨_, _, rfl, rfl, rfl, rfl, rfl, rfl, rfl, rfl, rfl⟩
  have hfollows : m.Follows (.save "a" :: (body ++ [.restore "a"])) Arithmetic.onIntegers :=
    ⟨hcodes, Arithmetic.gives_onIntegers hhost hinstalled⟩
  have hholds : m.program.Holds 0 (.save "a" :: (body ++ [.restore "a"])) :=
    Program.holds_of_fetched fun i code hi => by
      rw [Nat.zero_add]
      exact hfollows.fetched hi
  have hh : m.host.Detached := by
    rw [hhost]
    exact Table.standard_detached
  have hi : m.installed.Detached := by
    rw [hinstalled]
    exact fun _ _ hop => by cases hop
  have hinit : ∀ code ∈ body, code.calls (utf8 "initialize") = false := by decide
  have hops : ∀ code ∈ body, code.CallsDetached m.find := fun code hcode =>
    Code.callsDetached_of_tables hh hi (hinit code hcode)
  have hhas : m.state.has (utf8 "a") = true := by
    rw [State.has, ha]
    rfl
  have hok : ∀ e, (m.run (body.length + 1)).1 ≠ .failed e := fun e he => by cases hrun.symm.trans he
  obtain ⟨m', bare, hm', hbare, hvalues, -, hread, hothers, -⟩ :=
    (bracket_restores (by decide) hhas hpc hholds rfl hops).2 hok
  exact ⟨m₀, m, m', bare, hcompile, hwrite, hm', hbare, hvalues.trans hstack, hread.trans ha,
    hothers _ (by decide) (by decide)⟩

end Machine

end RegisterMachine
