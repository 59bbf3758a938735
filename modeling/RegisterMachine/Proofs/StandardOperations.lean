import RegisterMachine.Proofs.Statistics
import RegisterMachine.Proofs.Walking
import RegisterMachine.Proofs.WellFormed

/-!
# What the standard operations do

* `Table.standard_detached`: they leave the state of the machine alone.
* `Arithmetic.Comparison.Relates`, `Arithmetic.accepts_integers_iff`: what a comparison says of two integers.
* `Arithmetic.onIntegers`, `Arithmetic.gives_onIntegers`: what some of them give for two integers.
* `Machine.compile_standard`: machines that are compiled with them.
-/

namespace RegisterMachine

/-! ## Operations and the state of the machine -/

/-- An operation that does in every state what it does in the first one, and leaves the state as it was. -/
theorem Operation.detached_of_forall {op : Operation}
    (h : ∀ args s c, op args ⟨s, c⟩ = ((op args ⟨{}, c⟩).1, ⟨s, (op args ⟨{}, c⟩).2.console⟩)) : op.Detached :=
  ⟨fun args c => ((op args ⟨{}, c⟩).1, (op args ⟨{}, c⟩).2.console), h⟩

theorem Lists.cons_detached : Operation.Detached Lists.cons := by
  refine Operation.detached_of_forall fun args s c => ?_
  unfold Lists.cons
  cases Lists.two args <;> rfl

theorem Lists.list_detached : Operation.Detached Lists.list := Operation.detached_of_forall fun _ _ _ => rfl

theorem Dialogue.print_detached : Operation.Detached Dialogue.print := by
  refine Operation.detached_of_forall fun args s c => ?_
  simp only [Dialogue.print]
  cases c.output.write (printedLine args) <;> rfl

theorem Dialogue.read_detached : Operation.Detached Dialogue.read := by
  refine Operation.detached_of_forall fun args s c => ?_
  simp only [Dialogue.read]
  cases args.isEmpty <;> cases c.input <;> rfl

/-- **The standard operations leave the state of the machine alone.** -/
theorem Table.standard_detached : Table.standard.Detached := by
  intro name op hop
  refine Table.forall_lookup ?_ hop
  simp only [Table.standard, List.forall_mem_cons, Operation.pure_detached, Lists.cons_detached,
    Lists.list_detached, Dialogue.print_detached, Dialogue.read_detached, List.not_mem_nil, true_and]
  exact fun _ h => h.elim

/-! ## Two integers -/

namespace Arithmetic

/-- What an operation gives for two integers. -/
def integerOperations : List (Bytes × (Int64 → Int64 → Option Value)) := [
  ("+", fun a b => some (.int (a + b))),
  ("-", fun a b => some (.int (a - b))),
  ("rem", fun a b => if b = 0 then none else some (.int (a % b))),
  ("=", fun a b => some (.bool (decide (a = b)))),
  ("<", fun a b => some (.bool (decide (a < b))))]

/-- What the operation of that name gives for these arguments, if they are two integers. -/
def onIntegers (name : Bytes) : List Value → Option Value
  | [.int a, .int b] => (integerOperations.lookup name).bind fun f => f a b
  | _ => none

theorem add_integers (a b : Int64) : add [.int a, .int b] = .ok (.int (a + b)) := by
  show Except.ok (Value.int (0 + a + b)) = _
  rw [Int64.zero_add]

theorem integers_of_ne_zero {a b : Int64} (hb : b ≠ 0) : integers [.int a, .int b] = .ok (a, b) := by
  have hb' : (b == 0) = false := by simpa using hb
  show (if b == 0 then _ else _) = _
  rw [hb']
  rfl

theorem remainder_integers {a b : Int64} (hb : b ≠ 0) : remainder [.int a, .int b] = .ok (.int (a % b)) := by
  rw [remainder, integers_of_ne_zero hb]
  rfl

theorem compareAll_integers (c : Comparison) (a b : Int64) :
    compareAll c [.int a, .int b] = .ok (.bool (c.accepts (Number.order (.int a) (.int b)))) := by
  show Except.ok (Value.bool (_ && true)) = _
  rw [Bool.and_true]

/-- The relation that a comparison decides. -/
def Comparison.Relates : Comparison → Int → Int → Prop
  | eq, x, y => x = y
  | lt, x, y => x < y
  | gt, x, y => x > y
  | le, x, y => x ≤ y
  | ge, x, y => x ≥ y

theorem Comparison.accepts_compare_iff (c : Comparison) (x y : Int) :
    c.accepts (compare x y) = true ↔ c.Relates x y := by
  cases c with
  | eq => exact beq_iff_eq.trans compare_eq_iff_eq
  | lt => exact beq_iff_eq.trans compare_lt_iff_lt
  | gt => exact beq_iff_eq.trans compare_gt_iff_gt
  | le => exact bne_iff_ne.trans compare_le_iff_le
  | ge => exact bne_iff_ne.trans compare_ge_iff_ge

theorem order_integers (a b : Int64) : Number.order (.int a) (.int b) = compare a.toInt b.toInt := by
  simp only [Number.order, Int64.lt_iff_toInt_lt]
  split
  · next h => exact (compare_lt_iff_lt.mpr h).symm
  · next h =>
    split
    · next h' => exact (compare_gt_iff_gt.mpr h').symm
    · next h' => exact (compare_eq_iff_eq.mpr (Int.le_antisymm (Int.not_lt.mp h') (Int.not_lt.mp h))).symm

theorem accepts_integers_iff (c : Comparison) (a b : Int64) :
    c.accepts (Number.order (.int a) (.int b)) = true ↔ c.Relates a.toInt b.toInt := by
  rw [order_integers, c.accepts_compare_iff]

theorem standard_integerOperations : ∀ e ∈ integerOperations, ∃ f, Table.standard.lookup e.1 = some (.pure f) ∧
    ∀ a b v, e.2 a b = some v → f [.int a, .int b] = .ok v := by
  simp only [integerOperations, List.forall_mem_cons, List.not_mem_nil, false_implies, implies_true, and_true]
  refine ⟨⟨add, rfl, fun a b v h => ?_⟩, ⟨sub, rfl, fun a b v h => ?_⟩, ⟨remainder, rfl, fun a b v h => ?_⟩,
    ⟨compareAll .eq, rfl, fun a b v h => ?_⟩, ⟨compareAll .lt, rfl, fun a b v h => ?_⟩⟩
  · rw [add_integers, Option.some.inj h]
  · exact congrArg Except.ok (Option.some.inj h)
  · split at h
    · cases h
    · next hb => rw [remainder_integers hb, Option.some.inj h]
  · have heq : Comparison.eq.accepts (Number.order (.int a) (.int b)) = decide (a = b) := by
      rw [Bool.eq_iff_iff, accepts_integers_iff, decide_eq_true_iff]
      exact Int64.toInt_inj
    rw [compareAll_integers, heq, Option.some.inj h]
  · have hlt : Comparison.lt.accepts (Number.order (.int a) (.int b)) = decide (a < b) := by
      rw [Bool.eq_iff_iff, accepts_integers_iff, decide_eq_true_iff]
      exact Int64.lt_iff_toInt_lt.symm
    rw [compareAll_integers, hlt, Option.some.inj h]

/-- **What the standard operations give for two integers**, if nothing is installed in their place. -/
theorem gives_onIntegers {m : Machine} (hh : m.host = .standard) (hi : m.installed = {}) :
    Gives m.find onIntegers := by
  intro name args v h
  unfold onIntegers at h
  split at h
  · next a b =>
    obtain ⟨f, hf, hv⟩ := Option.bind_eq_some_iff.mp h
    obtain ⟨before, after, hs, -⟩ := List.lookup_eq_some_iff.mp hf
    have hmem : (name, f) ∈ integerOperations := hs ▸ List.mem_append_right before List.mem_cons_self
    obtain ⟨g, hg, hgv⟩ := standard_integerOperations (name, f) hmem
    refine ⟨.pure g, ?_, fun w => ?_⟩
    · rw [Machine.find, hi, hh, hg]
      rfl
    · rw [Operation.pure, hgv a b v hv]
      rfl
  · cases h

end Arithmetic

/-! ## Machines with the standard operations -/

/-- A text that reads as a controller with these instructions compiles to a machine that follows them and has not
done anything yet. -/
theorem Machine.compile_standard {serial : Nat} {file : SourceFile} (registers : Option (List Bytes))
    (console : Console) {controller : Form} {codes : List Code}
    (hread : Source.readOne [file] .form = (some controller, none))
    (hcodes : (Program.assemble serial controller).map (·.instructions.toList.map (·.code)) = .ok (codes.map some))
    (hfresh : Fresh (registers.getD (inferRegisters controller))) :
    ∃ m, Machine.compile serial file registers .standard console = .ok m ∧ m.Follows codes Arithmetic.onIntegers ∧
      m.state.pc = .view (m.program.view 0) ∧ m.state.names = registers.getD (inferRegisters controller) ∧
      m.state.executed = 0 := by
  rcases create_of_fresh serial _ .standard console controller hfresh with ⟨m, hm⟩ | ⟨e, -, he⟩
  · obtain ⟨hprogram, hhost, hinstalled, hpc⟩ := Interpreter.create_ok hm
    rw [hprogram] at hcodes
    refine ⟨m, ?_, ⟨Except.ok.inj hcodes, Arithmetic.gives_onIntegers hhost hinstalled⟩, hpc, names_of_create hm,
      (create_tally hm).executed⟩
    rw [Machine.compile, hread]
    simp only [hm]
  · rw [he] at hcodes
    cases hcodes

end RegisterMachine
