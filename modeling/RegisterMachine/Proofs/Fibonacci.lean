import Mathlib.Data.Nat.Fib.Basic
import RegisterMachine.Proofs.StandardOperations

/-!
# Recursive Fibonacci

The controller that computes Fibonacci numbers by two calls of itself.  A call is a jump to its loop with the place
to return to in `continue`; what the caller still needs is on the stack.

* `Fibonacci.text`, `Fibonacci.codes`: the controller and its instructions.
* `Fibonacci.word`: the value that it computes, with 64 bits.
* `Fibonacci.reaches_return`: a call returns with the value, and the stack as it was.
* `Fibonacci.run_fibonacci`: the machine halts with the value.
-/

namespace RegisterMachine.Fibonacci

open Machine

/-! ## The controller -/

/-- The text of the controller. -/
def text : Bytes := join [byte '\n'] [
  "",
  "(",
  "   (assign continue (label fib-done))",
  " fib-loop",
  "   (test (op <) (reg n) (const 2))",
  "   (branch (label immediate-answer))",
  "   (save continue)",
  "   (assign continue (label afterfib-n-1))",
  "   (save n)",
  "   (assign n (op -) (reg n) (const 1))",
  "   (goto (label fib-loop))",
  " afterfib-n-1",
  "   (restore n)",
  "   (restore continue)",
  "   (assign n (op -) (reg n) (const 2))",
  "   (save continue)",
  "   (assign continue (label afterfib-n-2))",
  "   (save val)",
  "   (goto (label fib-loop))",
  " afterfib-n-2",
  "   (assign n (reg val))",
  "   (restore val)",
  "   (restore continue)",
  "   (assign val (op +) (reg val) (reg n))",
  "   (goto (reg continue))",
  " immediate-answer",
  "   (assign val (reg n))",
  "   (goto (reg continue))",
  " fib-done)"]

/-- What the text reads as. -/
def controller : Form := (Source.readOne [⟨[], text⟩] .form).1.getD .missing

/-- The instructions of the controller. -/
def codes : List Code := [
  .assign "continue" (some (.operand (.label "fib-done" 22))),
  -- fib-loop
  .test ⟨"<", [.reg "n", .const (.int 2)]⟩,
  .branch "immediate-answer" 20,
  .save "continue",
  .assign "continue" (some (.operand (.label "afterfib-n-1" 8))),
  .save "n",
  .assign "n" (some (.call ⟨"-", [.reg "n", .const (.int 1)]⟩)),
  .goto "fib-loop" 1,
  -- afterfib-n-1
  .restore "n",
  .restore "continue",
  .assign "n" (some (.call ⟨"-", [.reg "n", .const (.int 2)]⟩)),
  .save "continue",
  .assign "continue" (some (.operand (.label "afterfib-n-2" 15))),
  .save "val",
  .goto "fib-loop" 1,
  -- afterfib-n-2
  .assign "n" (some (.operand (.reg "val"))),
  .restore "val",
  .restore "continue",
  .assign "val" (some (.call ⟨"+", [.reg "val", .reg "n"]⟩)),
  .gotoReg "continue",
  -- immediate-answer
  .assign "val" (some (.operand (.reg "n"))),
  .gotoReg "continue"]

set_option maxRecDepth 100000 in
theorem text_reads (name : Bytes) : Source.readOne [⟨name, text⟩] .form = (some controller, none) := by rfl

set_option maxRecDepth 100000 in
theorem controller_assembles (serial : Nat) :
    (Program.assemble serial controller).map (·.instructions.toList.map (·.code)) = .ok (codes.map some) := by rfl

/-! ## Fibonacci numbers with 64 bits -/

/-- A number less than two is its own value; all others have their Fibonacci number, reduced to 64 bits. -/
def word (n : Int64) : Int64 := if n < 2 then n else .ofInt (Nat.fib n.toInt.toNat)

theorem word_of_nonneg {n : Int64} (h : 0 ≤ n.toInt) : word n = .ofInt (Nat.fib n.toInt.toNat) := by
  unfold word
  split
  · next hlt =>
    have htwo : n.toInt < 2 := Int64.lt_iff_toInt_lt.mp hlt
    have hfib : ((Nat.fib n.toInt.toNat : Nat) : Int) = n.toInt := by
      obtain h0 | h1 : n.toInt = 0 ∨ n.toInt = 1 := by omega
      · rw [h0]
        rfl
      · rw [h1]
        rfl
    rw [hfib, Int64.ofInt_toInt]
  · rfl

/-- Less one and less two do not wrap around where the controller calls itself. -/
theorem toInt_less {n : Int64} (h : ¬ n < 2) :
    2 ≤ n.toInt ∧ (n - 1).toInt = n.toInt - 1 ∧ (n - 2).toInt = n.toInt - 2 := by
  have htwo : 2 ≤ n := Int64.not_lt.mp h
  have hone : 1 ≤ n := Int64.le_trans (by decide) htwo
  exact ⟨Int64.le_iff_toInt_le.mp htwo, Int64.toInt_sub_of_le n 1 (by decide) hone,
    Int64.toInt_sub_of_le n 2 (by decide) htwo⟩

/-- The recursion of the controller. -/
theorem word_add {n : Int64} (h : ¬ n < 2) : word n = word (n - 1) + word (n - 2) := by
  obtain ⟨htwo, h1, h2⟩ := toInt_less h
  obtain ⟨k, hk⟩ : ∃ k : Nat, n.toInt = k + 2 := ⟨(n.toInt - 2).toNat, by omega⟩
  have hn : n.toInt.toNat = k + 2 := by omega
  have hn1 : (n - 1).toInt.toNat = k + 1 := by omega
  have hn2 : (n - 2).toInt.toNat = k := by omega
  rw [word_of_nonneg (by omega), word_of_nonneg (by omega), word_of_nonneg (by omega), hn, hn1, hn2,
    Nat.fib_add_two, Nat.add_comm, Nat.cast_add, Int64.ofInt_add]

/-! ## Calls -/

/-- The registers that the controller uses. -/
def names : List Bytes := ["n", "val", "continue", flagName]

/-- These registers, with an integer in `n` and `back` in `continue`. -/
def known (offset : Nat) (n : Int64) (val back flag : Value) (stack : Stack) : Snapshot :=
  ⟨offset, [("n", .int n), ("val", val), ("continue", back), (flagName, flag)], stack⟩

section Calls

variable {m : Machine} (hm : m.Follows codes Arithmetic.onIntegers) (n : Int64) (val back flag : Value)
  (stack : Stack)
include hm

theorem enters :
    m.Reaches 1 (known 0 n val back flag stack) (known 1 n val (.view (m.program.view 22)) flag stack) :=
  hm.reaches rfl

theorem tested : m.Reaches 1 (known 1 n val back flag stack) (known 2 n val back (.bool (decide (n < 2))) stack) :=
  hm.reaches rfl

theorem answers :
    m.Reaches 2 (known 2 n val back (.bool true) stack) (known 21 n (.int n) back (.bool true) stack) :=
  hm.reaches rfl

/-- The first call saves what the second one needs. -/
theorem calls_first : m.Reaches 6 (known 2 n val back (.bool false) stack)
    (known 1 (n - 1) val (.view (m.program.view 8)) (.bool false) ((stack.push back).push (.int n))) :=
  hm.reaches rfl

variable {stack} {rest : List Value}

/-- The second call, from where the first one returns, saves the first value. -/
theorem calls_second (n' : Int64) (back' : Value) (hstack : stack.values = .int n :: back :: rest) :
    ∃ stack', stack'.values = val :: back :: rest ∧
      m.Reaches 7 (known 8 n' val back' flag stack)
        (known 1 (n - 2) val (.view (m.program.view 15)) flag stack') := by
  obtain ⟨values, depth, pushes, maxDepth, hdepth⟩ := stack
  obtain rfl : values = _ := hstack
  refine ⟨_, ?_, hm.reaches rfl⟩
  rfl

/-- Where the second call returns, the two values are added. -/
theorem adds (u v n' : Int64) (back' : Value) (hstack : stack.values = .int u :: back :: rest) :
    ∃ stack', stack'.values = rest ∧
      m.Reaches 4 (known 15 n' (.int v) back' flag stack) (known 19 v (.int (u + v)) back flag stack') := by
  obtain ⟨values, depth, pushes, maxDepth, hdepth⟩ := stack
  obtain rfl : values = _ := hstack
  refine ⟨_, ?_, hm.reaches rfl⟩
  rfl

variable (stack) {r : Nat} (hr : r ≤ m.program.size)
include hr

/-- Both ways through the loop end with a jump back. -/
theorem returns (offset : Nat) (hoff : codes[offset]? = some (.gotoReg "continue")) :
    m.Reaches 1 (known offset n val (.view (m.program.view r)) flag stack)
      (known r n val (.view (m.program.view r)) flag stack) := by
  have hview : (Value.view (m.program.view r)).isViewOf m.program.layout = true := beq_self_eq_true _
  let here := known offset n val (.view (m.program.view r)) flag stack
  have hneed : Code.need m.program here.read? here.stack.top? (.gotoReg "continue") =
      .ok (.value (.view (m.program.view r))) := if_pos hview
  refine hm.reaches_step hoff ?_
  show here.step m.program Arithmetic.onIntegers _ = _
  rw [Snapshot.step, Snapshot.value?, hneed]
  show some (known (m.program.view r).offset n val (.view (m.program.view r)) flag stack) = _
  rw [Program.offset_view hr]

/-- **A call returns** with the value in `val` and the values on the stack as they were, by induction on the
number. -/
theorem reaches_return : ∃ k n' flag' stack', stack'.values = stack.values ∧
    m.Reaches k (known 1 n val (.view (m.program.view r)) flag stack)
      (known r n' (.int (word n)) (.view (m.program.view r)) flag' stack') := by
  induction h : n.toInt.toNat using Nat.strong_induction_on generalizing n val flag stack r with
  | _ size ih =>
    subst h
    have htest := tested hm n val (.view (m.program.view r)) flag stack
    by_cases hn : n < 2
    · rw [decide_eq_true hn] at htest
      have hanswer := answers hm n val (.view (m.program.view r)) stack
      have hback := returns hm n (.int n) (.bool true) stack hr 21 rfl
      rw [word, if_pos hn]
      exact ⟨_, n, .bool true, stack, rfl, (htest.trans hanswer).trans hback⟩
    · rw [decide_eq_false hn] at htest
      obtain ⟨htwo, h1, h2⟩ := toInt_less hn
      have hsize : m.program.size = 22 := hm.size
      -- the first call returns with `back` and the number still on the stack
      have hfirst := calls_first hm n val (.view (m.program.view r)) stack
      obtain ⟨k₁, n₁, flag₁, stack₁, hstack₁, hcall₁⟩ :=
        ih (n - 1).toInt.toNat (by omega) (n - 1) val (.bool false)
        ((stack.push (.view (m.program.view r))).push (.int n)) (r := 8) (by omega) rfl
      -- the second one with `back` and the first value
      obtain ⟨stack₂, hstack₂, hsecond⟩ :=
        calls_second hm n (.int (word (n - 1))) (.view (m.program.view r)) flag₁ n₁
        (.view (m.program.view 8)) hstack₁
      obtain ⟨k₂, n₂, flag₂, stack₃, hstack₃, hcall₂⟩ := ih (n - 2).toInt.toNat (by omega) (n - 2)
        (.int (word (n - 1))) flag₁ stack₂ (r := 15) (by omega) rfl
      obtain ⟨stack₄, hstack₄, hadd⟩ := adds hm (.view (m.program.view r)) flag₂ (word (n - 1)) (word (n - 2)) n₂
        (.view (m.program.view 15)) (hstack₃.trans hstack₂)
      have hback := returns hm (word (n - 2)) (.int (word (n - 1) + word (n - 2))) flag₂ stack₄ hr 19 rfl
      rw [word_add hn]
      have hcalls := (((htest.trans hfirst).trans hcall₁).trans hsecond).trans hcall₂
      exact ⟨_, word (n - 2), flag₂, stack₄, hstack₄, (hcalls.trans hadd).trans hback⟩

end Calls

/-! ## The machine -/

/-- **The machine computes Fibonacci numbers.**  Whatever else is in its registers and on its stack, it halts with
the value in `val` and the same values on the stack. -/
theorem run_fibonacci {registers : List Bytes} (hfresh : Fresh registers)
    (hnames : [utf8 "n", utf8 "val", utf8 "continue"] ⊆ registers) (serial : Nat) (name : Bytes)
    (console : Console) :
    ∃ m, Machine.compile serial ⟨name, text⟩ (some registers) .standard console = .ok m ∧
      ∀ (s : State) (n : Int64), s.pc = m.state.pc → s.names = m.state.names → s.read? "n" = some (.int n) →
        ∃ k m', (∀ limit, (m.withState s).run (k + (limit + 1)) = (.halted, k, m')) ∧
          m'.state.read? "val" = some (.int (word n)) ∧ m'.state.stack.values = s.stack.values := by
  obtain ⟨m, hcompile, hm, hpc, hregisters, -⟩ :=
    compile_standard (some registers) console (text_reads name) (controller_assembles serial) hfresh
  refine ⟨m, hcompile, fun s n hspc hsnames hn => ?_⟩
  have hhas : ∀ r ∈ names, r ≠ pcName ∧ s.has r = true := by
    have hlist : ∀ r ∈ names, r ≠ pcName ∧
        (r = flagName ∨ r ∈ [utf8 "n", utf8 "val", utf8 "continue"]) := by decide
    intro r hr
    obtain ⟨hne, hflag | hmem⟩ := hlist r hr
    · exact ⟨hne, State.has_iff.mpr (.inr (.inl hflag))⟩
    · refine ⟨hne, State.has_iff.mpr (.inr (.inr ?_))⟩
      rw [hsnames, hregisters]
      exact hnames hmem
  have hshows := State.shows_of_has (hspc.trans hpc) hhas
  rw [names, List.map_cons, hn] at hshows
  -- the first instruction makes the program a call that returns behind its end
  have henter := enters hm n ((s.read? "val").getD .nil) ((s.read? "continue").getD .nil)
    ((s.read? flagName).getD .nil) s.stack
  obtain ⟨k, n', flag', stack', hstack, hreach⟩ := reaches_return hm n ((s.read? "val").getD .nil)
    ((s.read? flagName).getD .nil) s.stack (Nat.le_of_eq hm.size.symm)
  obtain ⟨m', hrun, hend, -⟩ := (henter.trans hreach).run (w := { m.world with state := s }) hm.size.symm hshows
  exact ⟨1 + k, m', hrun, (hend.read? rfl).2, (congrArg Stack.values hend.stack).trans hstack⟩

/-- The first Fibonacci number that does not fit, with other values in `continue` and on the stack. -/
theorem run_fibonacci_wraps : ∃ m s k m',
    Machine.compile 0 ⟨[], text⟩ (some [utf8 "n", utf8 "val", utf8 "continue"]) .standard {} = .ok m ∧
    s.pc = m.state.pc ∧ s.names = m.state.names ∧ s.read? "n" = some (.int 93) ∧
    s.read? "continue" = some (.int 7) ∧
    s.stack.values = [.bool true, .nil] ∧ (∀ limit, (m.withState s).run (k + (limit + 1)) = (.halted, k, m')) ∧
    m'.state.read? "val" = some (.int (-6246583658587674878)) ∧ m'.state.stack.values = [.bool true, .nil] := by
  have hfresh : Fresh [utf8 "n", utf8 "val", utf8 "continue"] := ⟨by decide, by decide⟩
  obtain ⟨m, hcompile, h⟩ := run_fibonacci hfresh (List.Subset.refl _) 0 [] {}
  obtain ⟨controller, hread, hcreate⟩ := compile_ok hcompile
  have hnames := (names_of_create hcreate).symm
  have hword : word 93 = -6246583658587674878 := by decide +kernel
  let s : State := {
    pc := m.state.pc
    registers := [("n", .int 93), ("val", .nil), ("continue", .int 7)]
    stack := (Stack.reset.push .nil).push (.bool true) }
  obtain ⟨k, m', hrun, hval, hstack⟩ := h s 93 rfl hnames rfl
  rw [hword] at hval
  exact ⟨m, s, k, m', hcompile, rfl, hnames, rfl, rfl, rfl, hrun, hval, hstack⟩

end RegisterMachine.Fibonacci
