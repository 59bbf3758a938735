import RegisterMachine.Proofs.StandardOperations

/-!
# Euclid's algorithm

The controller that replaces two integers by the second one and their remainder until the second one is zero.

* `Euclid.text`, `Euclid.codes`: the controller and its instructions.
* `Euclid.remainderSteps`: the number of remainders that the algorithm takes.
* `Euclid.round`, `Euclid.finish`: what one pass through the loop does, and the last one.
* `Euclid.run_gcd`: the machine halts with the greatest common divisor.
-/

namespace RegisterMachine.Euclid

open Machine

/-! ## The controller -/

/-- The text of the controller. -/
def text : Bytes := join [byte '\n'] [
  "",
  "; Euclid's algorithm",
  "(test-b",
  "  (test (op =) (reg b) (const 0))",
  "  (branch (label gcd-done))",
  "  (assign t (op rem) (reg a) (reg b))",
  "  (assign a (reg b))",
  "  (assign b (reg t))",
  "  (goto (label test-b))",
  " gcd-done)",
  ""]

/-- What the text reads as. -/
def controller : Form := (Source.readOne [⟨[], text⟩] .form).1.getD .missing

/-- The instructions of the controller. -/
def codes : List Code := [
  .test ⟨"=", [.reg "b", .const (.int 0)]⟩,
  .branch "gcd-done" 6,
  .assign "t" (some (.call ⟨"rem", [.reg "a", .reg "b"]⟩)),
  .assign "a" (some (.operand (.reg "b"))),
  .assign "b" (some (.operand (.reg "t"))),
  .goto "test-b" 0]

set_option maxRecDepth 100000 in
theorem text_reads (name : Bytes) : Source.readOne [⟨name, text⟩] .form = (some controller, none) := by rfl

set_option maxRecDepth 100000 in
theorem controller_assembles (serial : Nat) :
    (Program.assemble serial controller).map (·.instructions.toList.map (·.code)) = .ok (codes.map some) := by rfl

theorem controller_registers : inferRegisters controller = [utf8 "b", utf8 "t", utf8 "a"] := by rfl

/-! ## The loop -/

/-- The number of remainders in Euclid's algorithm for two numbers. -/
def remainderSteps (a b : Nat) : Nat :=
  if h : b = 0 then 0 else remainderSteps b (a % b) + 1
termination_by b
decreasing_by exact Nat.mod_lt a (Nat.pos_of_ne_zero h)

/-- The registers that the algorithm uses. -/
def names : List Bytes := ["a", "b", "t", flagName]

/-- These registers, with integers in `a` and `b`. -/
def known (offset : Nat) (a b : Int64) (t flag : Value) (stack : Stack) : Snapshot :=
  ⟨offset, [("a", .int a), ("b", .int b), ("t", t), (flagName, flag)], stack⟩

section Loop

variable {m : Machine} (hm : m.Follows codes Arithmetic.onIntegers) {a b : Int64} (t flag : Value) (stack : Stack)
include hm

theorem tested : m.Reaches 1 (known 0 a b t flag stack) (known 1 a b t (.bool (decide (b = 0))) stack) :=
  hm.reaches rfl

/-- One pass through the loop. -/
theorem round (hb : b ≠ 0) :
    m.Reaches 6 (known 0 a b t flag stack) (known 0 b (a % b) (.int (a % b)) (.bool false) stack) := by
  have htest := tested hm (a := a) (b := b) t flag stack
  rw [decide_eq_false hb] at htest
  have hbranch : m.Reaches 1 (known 1 a b t (.bool false) stack) (known 2 a b t (.bool false) stack) :=
    hm.reaches rfl
  have hrem : m.Reaches 1 (known 2 a b t (.bool false) stack)
      (known 3 a b (.int (a % b)) (.bool false) stack) := by
    refine hm.reaches_step rfl ?_
    show ((if b = 0 then none else some (Value.int (a % b))).bind fun v => some _) = _
    rw [if_neg hb]
    rfl
  have hmove : m.Reaches 3 (known 3 a b (.int (a % b)) (.bool false) stack)
      (known 0 b (a % b) (.int (a % b)) (.bool false) stack) := hm.reaches rfl
  exact ((htest.trans hbranch).trans hrem).trans hmove

/-- The way out of the loop. -/
theorem finish : m.Reaches 2 (known 0 a 0 t flag stack) (known 6 a 0 t (.bool true) stack) := hm.reaches rfl

/-- **The loop runs to its end**, by induction on the size of the second number. -/
theorem reaches_gcd (a b : Int64) : ∃ r t' flag', r.toInt.natAbs = Nat.gcd a.toInt.natAbs b.toInt.natAbs ∧
    m.Reaches (6 * remainderSteps a.toInt.natAbs b.toInt.natAbs + 2) (known 0 a b t flag stack)
      (known 6 r 0 t' flag' stack) := by
  induction h : b.toInt.natAbs using Nat.strong_induction_on generalizing a b t flag with
  | _ n ih =>
    subst h
    by_cases hb : b = 0
    · subst hb
      exact ⟨a, t, .bool true, by simp, by simpa [remainderSteps] using finish hm t flag stack⟩
    · have hpos : b.toInt.natAbs ≠ 0 := fun h => hb (Int64.toInt_inj.mp (Int.natAbs_eq_zero.mp h))
      have hmod : (a % b).toInt.natAbs = a.toInt.natAbs % b.toInt.natAbs := by
        rw [Int64.toInt_mod, Int.natAbs_tmod]
      have hlt : (a % b).toInt.natAbs < b.toInt.natAbs := by
        rw [hmod]
        exact Nat.mod_lt _ (Nat.pos_of_ne_zero hpos)
      obtain ⟨r, t', flag', hr, hrest⟩ := ih _ hlt (.int (a % b)) (.bool false) b (a % b) rfl
      refine ⟨r, t', flag', ?_, ?_⟩
      · rw [hr, hmod, Nat.gcd_comm, ← Nat.gcd_rec, Nat.gcd_comm]
      · have hcount : 6 * remainderSteps a.toInt.natAbs b.toInt.natAbs + 2 =
            6 + (6 * remainderSteps b.toInt.natAbs (a % b).toInt.natAbs + 2) := by
          rw [remainderSteps, dif_neg hpos, ← hmod]
          omega
        rw [hcount]
        exact (round hm t flag stack hb).trans hrest

end Loop

/-! ## The machine -/

/-- **The machine computes the greatest common divisor** of any two integers.  It halts after six instructions for
each remainder and two more, with zero in `b` and, up to its sign, the divisor in `a`.  It leaves the
stack alone. -/
theorem run_gcd (serial : Nat) (name : Bytes) (console : Console) (a b : Int64) : ∃ m start m' r,
    Machine.compile serial ⟨name, text⟩ none .standard console = .ok m ∧
    m.writeAll [("a", .int a), ("b", .int b)] = (.ok (), start) ∧
    (∀ limit, start.run (6 * remainderSteps a.toInt.natAbs b.toInt.natAbs + 2 + (limit + 1)) =
      (.halted, 6 * remainderSteps a.toInt.natAbs b.toInt.natAbs + 2, m')) ∧
    m'.state.read? "b" = some (.int 0) ∧ m'.state.read? "a" = some (.int r) ∧
    r.toInt.natAbs = Nat.gcd a.toInt.natAbs b.toInt.natAbs ∧ m'.state.stack = m.state.stack ∧
    m'.state.executed = 6 * remainderSteps a.toInt.natAbs b.toInt.natAbs + 2 := by
  have hfresh : Fresh (Option.getD none (inferRegisters controller)) := by
    rw [Option.getD_none]
    exact fresh_inferRegisters controller
  obtain ⟨m, hcompile, hm, hpc, hnames, hexecuted⟩ :=
    compile_standard none console (text_reads name) (controller_assembles serial) hfresh
  rw [Option.getD_none, controller_registers] at hnames
  have hhas : ∀ r ∈ names, r ≠ pcName ∧ m.state.has r = true := by
    simp only [State.has_iff, hnames]
    decide
  have ha := hhas "a" (by decide)
  have hb := hhas "b" (by decide)
  have hb' : (m.state.write "a" (.int a)).has "b" = true := (State.has_write ..).trans hb.2
  -- whatever the other registers hold, the run starts with the two integers in place
  obtain ⟨s, hs⟩ : ∃ s, s = (m.state.write "a" (.int a)).write "b" (.int b) := ⟨_, rfl⟩
  have hwrite : m.writeAll [("a", .int a), ("b", .int b)] = (.ok (), m.withState s) := by
    rw [hs]
    exact writeAll_of_has (List.forall_mem_cons.mpr ⟨ha.2, List.forall_mem_singleton.mpr hb.2⟩)
  have hshows := ((State.shows_of_has hpc hhas).write ha.1 ha.2 (.int a)).write hb.1 hb' (.int b)
  have hstart : s.executed = 0 := by
    rw [hs, State.executed_write, State.executed_write, hexecuted]
  rw [← hs] at hshows
  obtain ⟨r, t, flag, hr, hreach⟩ := reaches_gcd hm _ _ m.state.stack a b
  obtain ⟨m', hrun, hend, hcount⟩ := hreach.run (w := { m.world with state := s }) hm.size.symm hshows
  refine ⟨m, m.withState s, m', r, hcompile, hwrite, hrun, (hend.read? rfl).2, (hend.read? rfl).2, hr,
    hend.stack, ?_⟩
  rw [hcount]
  show s.executed + _ = _
  rw [hstart, Nat.zero_add]

example : 6 * remainderSteps 206 40 + 2 = 26 := by cbv

end RegisterMachine.Euclid
