import RegisterMachine.Machine.Load
import RegisterMachine.Machine.Report
import RegisterMachine.Proofs.StandardOperations

/-!
# Descriptions without problems

A description is checked before anything else is done with it.  What is found out then cannot go wrong later.

* `Description.Valid`, `Description.valid_of_problems`: what a description without problems is like.
* `Table.select_of_known`, `Machine.preset_of_has`, `Machine.report_of_has`: one lemma for each later use of a
  name.
* `assemble_cause`: the assembler does not complain about registers.
* `Machine.LoadedAs`: what can become of a controller text.
* `Machine.load_of_valid`: a valid description fails only for its controller text, and its registers can be printed
  at any time.
-/

namespace RegisterMachine

/-! ## What is checked -/

namespace Description

variable {d : Description}

/-- What a description that names its registers has to be like. -/
structure Valid (d : Description) : Prop where
  /-- The controller is a file or a text, and not both. -/
  controller : d.controller.isEmpty = !d.source.isEmpty
  registers : Fresh d.registers
  operations : ∀ name ∈ d.operations, isStandard name = true
  init : ∀ e ∈ d.init, e.1 ∈ d.registers
  print : ∀ name ∈ d.print, name ∈ d.registers ∨ isReserved name = true

theorem registerProblem?_eq_none {before : List Bytes} {name : Bytes} (h : registerProblem? before name = none) :
    isAllocated name = true ∧ name ∉ before := by
  unfold registerProblem? at h
  split at h
  · cases h
  split at h
  · cases h
  · next hreserved =>
    split at h
    · cases h
    · next hbefore =>
      refine ⟨?_, by simpa using hbefore⟩
      simpa [isReserved, isAllocated] using hreserved

/-- Registers without problems can be allocated together. -/
theorem fresh_of_registerProblems {before names : List Bytes} (h : registerProblems before names = []) :
    Fresh names ∧ ∀ name ∈ names, name ∉ before := by
  induction names generalizing before with
  | nil => exact ⟨⟨List.nodup_nil, by simp⟩, by simp⟩
  | cons name rest ih =>
    obtain ⟨hname, hrest⟩ := List.append_eq_nil_iff.mp h
    obtain ⟨halloc, hbefore⟩ := registerProblem?_eq_none (Option.toList_eq_nil_iff.mp hname)
    obtain ⟨⟨hnodup, hallocs⟩, hnot⟩ := ih hrest
    refine ⟨⟨List.nodup_cons.mpr ⟨fun hmem => hnot name hmem List.mem_cons_self, hnodup⟩,
      List.forall_mem_cons.mpr ⟨halloc, hallocs⟩⟩, List.forall_mem_cons.mpr ⟨hbefore, fun r hr hr' => ?_⟩⟩
    exact hnot r hr (List.mem_cons_of_mem name hr')

theorem controller_of_problem {d : Description} (h : d.controllerProblem? = none) :
    d.controller.isEmpty = !d.source.isEmpty := by
  unfold controllerProblem? at h
  cases hc : d.controller.isEmpty <;> cases hs : d.source.isEmpty <;> simp [hc, hs] at h ⊢

/-- **What the check finds out.** -/
theorem valid_of_problems (hr : d.registers ≠ []) (h : d.problems (some isStandard) = []) : d.Valid := by
  unfold problems at h
  simp only [List.append_eq_nil_iff, Option.toList_eq_nil_iff, Option.map_some, Option.getD_some] at h
  obtain ⟨⟨⟨hcontroller, hregisters⟩, hoperations⟩, hmention⟩ := h
  have hne : d.registers.isEmpty = false := by simpa using hr
  rw [mentionProblems, hne, if_neg Bool.false_ne_true, List.append_eq_nil_iff, List.map_eq_nil_iff,
    List.map_eq_nil_iff, List.filter_eq_nil_iff, List.filter_eq_nil_iff] at hmention
  rw [operationProblems, List.map_eq_nil_iff, List.filter_eq_nil_iff] at hoperations
  refine ⟨controller_of_problem hcontroller, (fresh_of_registerProblems hregisters).1, fun name hname => ?_,
    fun e he => ?_, fun name hname => ?_⟩
  · simpa using hoperations name hname
  · have hmem : e.1 ∈ sortBytes (d.init.map (·.1)) := List.mem_mergeSort.mpr (List.mem_map_of_mem he)
    simpa using hmention.1 e.1 hmem
  · have hprint := hmention.2 name hname
    cases hreserved : isReserved name with
    | true => exact .inr rfl
    | false => exact .inl (by simpa [hreserved] using hprint)

end Description

/-! ## Names that are used later -/

/-- Known operations can be selected, and the selection finds what the table finds. -/
theorem Table.select_of_known {t : Table} {names : List Bytes}
    (h : ∀ name ∈ names, (t.lookup name).isSome = true) :
    ∃ t', t.select names = .ok t' ∧ ∀ name op, t'.lookup name = some op → t.lookup name = some op := by
  unfold Table.select
  split
  · exact ⟨t, rfl, fun _ _ hop => hop⟩
  · refine foldlM_ok (I := fun acc : Table => ∀ name op, acc.lookup name = some op → t.lookup name = some op)
      (fun acc name hname hacc => ?_) (fun _ _ hop => by cases hop)
    obtain ⟨op, hop⟩ := Option.isSome_iff_exists.mp (h name hname)
    rw [hop]
    refine ⟨_, rfl, fun name' op' hop' => ?_⟩
    rw [Table.lookup_insert] at hop'
    split at hop'
    · next heq => rw [heq, hop, hop']
    · exact hacc name' op' hop'

theorem registerLines_of_has {s : State} {names : List Bytes} (h : ∀ name ∈ names, s.has name = true) :
    (registerLines s names).2 = none := by
  induction names with
  | nil => rfl
  | cons name rest ih =>
    obtain ⟨hname, hrest⟩ := List.forall_mem_cons.mp h
    obtain ⟨v, hv⟩ := Option.isSome_iff_exists.mp hname
    rw [registerLines, hv]
    exact ih hrest

namespace Machine

variable {m : Machine}

/-- A report on registers that are there is complete. -/
theorem report_of_has {r : Report} (h : ∀ name ∈ r.registers, m.state.has name = true) :
    (m.report r).2 = none := by
  have hlines := registerLines_of_has h
  unfold report
  split
  · next heq =>
    rw [heq] at hlines
    cases hlines
  · rfl

/-- Initial values for registers that are there can be set. -/
theorem preset_of_has {values : List (Bytes × Value)} (h : ∀ e ∈ values, m.state.has e.1 = true) :
    ∃ s, m.preset values = (.ok (), m.withState s) ∧ s.names = m.state.names := by
  refine ⟨_, writeAll_of_has fun e he => ?_, State.names_writes _ _⟩
  exact h e (List.mem_mergeSort.mp he)

/-- Whatever the host asks for, no register goes away. -/
theorem has_serveAll (hm : m.Acts fun _ => True) {rs : List Request}
    (hrs : ∀ r ∈ rs, r.Acts (fun _ => True) m.program.entry) {name : Bytes} (h : m.state.has name = true) :
    (m.serveAll rs).state.has name = true := by
  have hinit : m.Hosted (fun _ => True) m.program (·.has name = true) := ⟨rfl, hm, h⟩
  exact (hinit.serveAll (fun m' _ hm' hs => State.has_mono (names_step hm' trivial).subset hs)
    (fun s t _ hs => State.has_mono (t.names_apply _ s).subset hs) hrs).state

end Machine

/-! ## What the assembler complains about -/

section Causes

variable {labels : List (Bytes × Nat)} {c : AssemblyCause} {register : Bytes}

theorem resolve_cause {name : Bytes} (h : resolve labels name = .error c) : c ≠ .duplicateRegister register := by
  unfold resolve at h
  split at h <;> cases h
  simp

theorem compileOperand_cause {x : Form} (h : compileOperand labels x = .error c) :
    c ≠ .duplicateRegister register := by
  unfold compileOperand at h
  split at h
  · cases h
    simp
  split at h
  · cases h
  split at h
  · exact resolve_cause (eq_error_of_bind_pure h)
  · cases h
    simp
  split at h <;> cases h
  simp

theorem compileOperands_cause {operation : Bytes} {index : Nat} {xs : List Form}
    (h : compileOperands labels operation index xs = .error c) : c ≠ .duplicateRegister register := by
  induction xs generalizing index with
  | nil => cases h
  | cons x xs ih =>
    rw [compileOperands] at h
    split at h
    · cases h
      simp
    · exact ih (eq_error_of_bind_pure h)

theorem compileCall_cause {op : Form} {args : List Form} (h : compileCall labels op args = .error c) :
    c ≠ .duplicateRegister register := by
  unfold compileCall at h
  split at h
  · exact compileOperands_cause (eq_error_of_bind_pure h)
  · cases h
    simp

theorem compileAssign_cause {args : List Form} (h : compileAssign labels args = .error c) :
    c ≠ .duplicateRegister register := by
  unfold compileAssign at h
  split at h
  · split at h
    · split at h
      · exact compileCall_cause (eq_error_of_bind_pure h)
      · split at h
        · cases h
          simp
        · exact compileOperand_cause (eq_error_of_bind_pure h)
    · cases h
      simp
  · cases h
    simp

theorem compileAction_cause {make : Call → Code} {bad : AssemblyCause} {args : List Form}
    (hbad : bad ≠ .duplicateRegister register) (h : compileAction labels make bad args = .error c) :
    c ≠ .duplicateRegister register := by
  unfold compileAction at h
  split at h
  · exact compileCall_cause (eq_error_of_bind_pure h)
  · cases h
    exact hbad

theorem compileBranch_cause {args : List Form} (h : compileBranch labels args = .error c) :
    c ≠ .duplicateRegister register := by
  unfold compileBranch at h
  split at h
  · exact resolve_cause (eq_error_of_bind_pure h)
  · cases h
    simp

theorem compileGoto_cause {args : List Form} (h : compileGoto labels args = .error c) :
    c ≠ .duplicateRegister register := by
  unfold compileGoto at h
  split at h
  · exact resolve_cause (eq_error_of_bind_pure h)
  · split at h <;> cases h
    simp

theorem compileTransfer_cause {make : Bytes → Code} {bad : AssemblyCause} {args : List Form}
    (hbad : bad ≠ .duplicateRegister register) (h : compileTransfer make bad args = .error c) :
    c ≠ .duplicateRegister register := by
  unfold compileTransfer at h
  split at h <;> cases h
  exact hbad

theorem compile_cause {items : List Form} (h : compile labels items = .error c) :
    c ≠ .duplicateRegister register := by
  unfold compile at h
  split at h
  · cases h
    simp
  · dsimp only at h
    split at h
    · exact compileAssign_cause h
    split at h
    · exact compileAction_cause (by simp) h
    split at h
    · exact compileBranch_cause h
    split at h
    · exact compileGoto_cause h
    split at h
    · exact compileTransfer_cause (by simp) h
    split at h
    · exact compileTransfer_cause (by simp) h
    split at h
    · exact compileAction_cause (by simp) h
    · cases h
      simp

theorem splitFrom_cause {s : Split} {position : Nat} {items : List Form} {e : AssemblyError}
    (h : splitFrom s position items = .error e) : e.cause ≠ .duplicateRegister register := by
  induction items generalizing s position with
  | nil => cases h
  | cons x items ih =>
    rw [splitFrom] at h
    rcases bind_eq_error h with h | ⟨s', -, h⟩
    · cases x with
      | ident span name =>
        rw [Split.add] at h
        split at h <;> cases h
        simp
      | list span parts => cases h
      | int | float | string | missing =>
        cases h
        simp
    · exact ih h

/-- **The assembler does not complain about registers.** -/
theorem assemble_cause {serial : Nat} {controller : Form} {e : AssemblyError}
    (h : Program.assemble serial controller = .error e) : e.cause ≠ .duplicateRegister register := by
  unfold Program.assemble at h
  split at h
  · cases h
    simp
  · rcases bind_eq_error h with h | ⟨s, -, h⟩
    · exact splitFrom_cause h
    rcases bind_eq_error h with h | ⟨is, -, h⟩
    · obtain ⟨-, el, -, -, hel, -⟩ := mapM_eq_error h
      unfold compileElement at hel
      split at hel
      · cases hel
      · next hc =>
        cases hel
        exact compile_cause hc
    · cases h

end Causes

/-! ## Loading -/

/-- The text of the controller, which is part of the description or in a file. -/
def Description.contents {μ : Type → Type} [Monad μ] (fs : FileSystem μ) (d : Description) :
    μ (Except FileError Bytes) :=
  if d.source.isEmpty then fs.contents d.controllerName else pure (.ok d.source)

namespace Machine

section Outcomes

variable (serial : Nat) (d : Description) (table : Table) (console : Console)

/-- What becomes of the text of a controller, if there is one. -/
def ofContents : Except FileError Bytes → Except LoadError Machine
  | .error e => .error (.unreadable .controller e)
  | .ok text => ofDescription serial d table text console

/-- What can become of the text of a controller: it does not read as a form, it does not assemble, though not
because of the registers, or there is a machine with the initial values. -/
inductive LoadedAs (text : Bytes) : Except LoadError Machine → Prop
  | unread {e : SyntaxError} (h : ∀ x, Source.readOne [⟨d.controllerName, text⟩] .form ≠ (some x, none)) :
    LoadedAs text (.error (.badController (.text e)))
  | unassembled {x : Form} {e : AssemblyError}
    (hread : Source.readOne [⟨d.controllerName, text⟩] .form = (some x, none))
    (hx : Program.assemble serial x = .error e) (hcause : ∀ name, e.cause ≠ .duplicateRegister name) :
    LoadedAs text (.error (.badController (.assembly e)))
  | loaded {x : Form} {m₀ m : Machine} (hread : Source.readOne [⟨d.controllerName, text⟩] .form = (some x, none))
    (hcreate : create serial d.registers table console x = .ok m₀) (hinit : m₀.preset d.init = (.ok (), m)) :
    LoadedAs text (.ok m)

end Outcomes

variable {serial : Nat} {d : Description} {table : Table} {console : Console}

/-- What can become of a text, if the registers can be allocated. -/
theorem compile_of_fresh {registers : List Bytes} (hfresh : Fresh registers) (file : SourceFile) :
    (∃ e, (∀ x, Source.readOne [file] .form ≠ (some x, none)) ∧
      compile serial file (some registers) table console = .error (.text e)) ∨
    ∃ x, Source.readOne [file] .form = (some x, none) ∧
      ((∃ e, Program.assemble serial x = .error e ∧
        compile serial file (some registers) table console = .error (.assembly e)) ∨
      ∃ m, create serial registers table console x = .ok m ∧
        compile serial file (some registers) table console = .ok m) := by
  unfold compile
  rcases hread : Source.readOne [file] .form with ⟨_ | x, _ | e⟩
  · exact .inl ⟨_, by simp, rfl⟩
  · exact .inl ⟨e, by simp, rfl⟩
  · refine .inr ⟨x, rfl, ?_⟩
    rcases create_of_fresh serial registers table console x hfresh with ⟨m, hm⟩ | ⟨e, he, hx⟩
    · exact .inr ⟨m, hm, by simp [hm]⟩
    · exact .inl ⟨e, hx, by simp [he]⟩
  · exact .inl ⟨e, by simp, rfl⟩

/-- A machine with the registers of the description takes its initial values. -/
theorem preset_of_valid {x : Form} {m : Machine} (hd : d.Valid)
    (hm : create serial d.registers table console x = .ok m) :
    ∃ s, m.preset d.init = (.ok (), m.withState s) ∧ s.names = d.registers := by
  have hnames : m.state.names = d.registers := names_of_create hm
  have hhas : ∀ e ∈ d.init, m.state.has e.1 = true := fun e he =>
    State.has_iff.mpr (.inr (.inr (hnames ▸ hd.init e he)))
  obtain ⟨s, hs, hsnames⟩ := preset_of_has hhas
  exact ⟨s, hs, hsnames.trans hnames⟩

theorem ofDescription_loadedAs (serial : Nat) (table : Table) (console : Console) (hr : d.registers ≠ [])
    (hd : d.Valid)
    (text : Bytes) :
    LoadedAs serial d table console text (ofDescription serial d table text console) := by
  have hregisters : (if d.registers.isEmpty then none else some d.registers) = some d.registers := by simp [hr]
  rw [ofDescription, hregisters]
  rcases compile_of_fresh hd.registers ⟨d.controllerName, text⟩ with
    ⟨e, hno, hc⟩ | ⟨x, hread, ⟨e, hx, hc⟩ | ⟨m, hm, hc⟩⟩
  · rw [hc]
    exact .unread hno
  · rw [hc]
    exact .unassembled hread hx fun _ => assemble_cause hx
  · obtain ⟨s, hs, -⟩ := preset_of_valid hd hm
    simp only [hc, hs]
    exact .loaded hread hm hs

/-- The registers to print are there, whatever was done with the machine. -/
theorem LoadedAs.report {text : Bytes} {m : Machine} (h : LoadedAs serial d table console text (.ok m))
    (hd : d.Valid)
    (ht : ∀ name op, table.lookup name = some op → Table.standard.lookup name = some op) {rs : List Request}
    (hrs : ∀ r ∈ rs, r.Acts (fun _ => True) m.program.entry) (r : Report) :
    ((m.serveAll rs).report { r with registers := d.print }).2 = none := by
  cases h with
  | @loaded x m₀ m hread hcreate hinit =>
    obtain ⟨s, hs, hnames⟩ := preset_of_valid hd hcreate
    obtain rfl : m₀.withState s = m := (Prod.mk.inj (hs.symm.trans hinit)).2
    have htable : table.Acts (fun _ => True) m₀.program.entry := fun name op hop =>
      (Table.standard_detached name op (ht name op hop)).acts _
    have hm₀ : m₀.Acts fun _ => True := acts_of_create hcreate htable
    have hacts : (m₀.withState s).Acts fun _ => True := hm₀
    refine report_of_has fun name hname => has_serveAll hacts hrs (State.has_iff.mpr ?_)
    rcases hd.print name hname with hin | hreserved
    · exact .inr (.inr (hnames ▸ hin))
    · simp only [isReserved, Bool.or_eq_true, beq_iff_eq] at hreserved
      exact hreserved.imp_right .inl

variable {μ : Type → Type} [Monad μ] [LawfulMonad μ]

theorem load_eq (fs : FileSystem μ) (hd : d.Valid) (htable : d.table = .ok table) :
    load fs serial d console = ofContents serial d table console <$> d.contents fs := by
  rw [load, htable, Description.controllerText, Description.contents]
  cases hs : d.source.isEmpty with
  | false => simp [ofContents]
  | true =>
    have hc : d.controller.isEmpty = false := by
      rw [hd.controller, hs]
      rfl
    simp only [hc, Bool.not_true, Bool.false_eq_true, if_false, if_true, bind_assoc, map_eq_pure_bind]
    refine congrArg _ (funext fun contents => ?_)
    cases contents <;> simp [ofContents]

/-- **A description without problems cannot fail late.**  If it names its registers, then the operations can be
selected and loading depends on the text of the controller only: it fails if there is no such text, if the text is
no form or if the form does not assemble, which is never for a register that is there twice.  Else there is a
machine, and it has the initial values.  Whatever the host then does with the machine, the registers to print can
be reported. -/
theorem load_of_valid (fs : FileSystem μ) (serial : Nat) (console : Console) (hr : d.registers ≠ [])
    (h : d.problems (some Description.isStandard) = []) : ∃ table,
    Table.standard.select d.operations = .ok table ∧
    load fs serial d console = ofContents serial d table console <$> d.contents fs ∧
    ∀ text, LoadedAs serial d table console text (ofDescription serial d table text console) ∧
      ∀ m, ofDescription serial d table text console = .ok m →
        ∀ rs : List Request, (∀ r ∈ rs, r.Acts (fun _ => True) m.program.entry) →
          ∀ r : Report, ((m.serveAll rs).report { r with registers := d.print }).2 = none := by
  have hd := Description.valid_of_problems hr h
  obtain ⟨table, hselect, ht⟩ := Table.select_of_known hd.operations
  have htable : d.table = .ok table := by
    rw [Description.table, h]
    simp only [hselect]
  refine ⟨table, hselect, load_eq fs hd htable, fun text => ?_⟩
  have hloaded := ofDescription_loadedAs serial table console hr hd text
  refine ⟨hloaded, fun m hm rs hrs r => ?_⟩
  rw [hm] at hloaded
  exact hloaded.report hd ht hrs r

/-- A description whose controller is in a file, with `pc` among the registers to print, before and after a run. -/
theorem load_of_valid_from_file : ∃ (d : Description) (fs : FileSystem Id) (m : Machine),
    d.controller = utf8 "rem.rm" ∧ d.registers ≠ [] ∧ d.problems (some Description.isStandard) = [] ∧
    d.print = [pcName, utf8 "b"] ∧ load fs 0 d {} = .ok m ∧
    (∀ r : Report, (m.report { r with registers := d.print }).2 = none) ∧
    ∀ n (r : Report), ((m.serveAll [.run n]).report { r with registers := d.print }).2 = none := by
  let d : Description := {
    registers := ["b", "a"], operations := ["rem", "rem"], controller := "rem.rm", init := [("a", .int 7)],
    print := [pcName, "b"], directory := "dir" }
  have hr : d.registers ≠ [] := by simp [d]
  have hp : d.problems (some Description.isStandard) = [] := by
    simp only [Description.problems, Description.mentionProblems, d, sortBytes, List.map_cons, List.map_nil,
      List.mergeSort_singleton]
    rfl
  let text : Bytes := "((assign b (op rem) (reg a) (const 4)))"
  let fs : FileSystem Id := ⟨fun _ => .ok text⟩
  obtain ⟨table, -, hload, hrest⟩ := load_of_valid fs 0 {} hr hp
  obtain ⟨hloaded, hreport⟩ := hrest text
  have hload' : load fs 0 d {} = ofDescription 0 d table text {} := hload
  generalize ofDescription 0 d table text {} = r at hloaded hreport hload'
  cases hloaded with
  | unread h => exact absurd rfl (h _)
  | @unassembled x e hread hx =>
    cases hread
    cases hx
  | @loaded x m₀ m =>
    exact ⟨d, fs, m, rfl, hr, hp, rfl, hload', hreport m rfl [] (by simp),
      fun n => hreport m rfl [.run n] (List.forall_mem_singleton.mpr trivial)⟩

end Machine

end RegisterMachine
