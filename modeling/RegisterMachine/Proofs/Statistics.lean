import RegisterMachine.Machine.Report
import RegisterMachine.Proofs.CoverageSet
import RegisterMachine.Proofs.Hosting
import RegisterMachine.Proofs.Hottest

/-!
# Statistics

The offsets of the instructions that were completed since the statistics were last cleared are a list, which the
machine itself does not keep.  Its counters, its counts and its coverage are all figures of that list.

* `Machine.completed`: the list, if only the host clears the statistics.
* `Machine.Record m rs log log'`: requests make the record `log'` of `log`; operations may clear the statistics
  too.
* `Machine.exists_record`: everything can be put on record.
* `State.Tally n log s`: the figures of a state are those of `log`; touches, steps and requests keep that.
* `Machine.Consistent`: what follows for all that is reported.
* `Machine.statistics_consistent`: it holds whatever a host asks for.
-/

namespace RegisterMachine

/-! ## Completed instructions -/

/-- The record after a touch: clearing the statistics clears it. -/
def Touch.record (log : List Nat) : Touch → List Nat
  | resetStats => []
  | _ => log

/-- The record after some touches. -/
def recordAfter (log : List Nat) (ts : List Touch) : List Nat := ts.foldl Touch.record log

theorem recordAfter_of_ne {log : List Nat} {ts : List Touch} (h : ∀ t ∈ ts, t ≠ .resetStats) :
    recordAfter log ts = log := by
  induction ts with
  | nil => rfl
  | cons t ts ih =>
    obtain ⟨ht, hts⟩ := List.forall_mem_cons.mp h
    have hrecord : t.record log = log := by
      cases t <;> first | rfl | exact absurd rfl ht
    show recordAfter (t.record log) ts = log
    rw [hrecord, ih hts]

/-- The operation that a request installs, if it does, keeps to touches of which `P` holds. -/
def Request.Installs (P : Touch → Prop) (entry : View) : Request → Prop
  | .install _ op => op.Acts P entry
  | _ => True

namespace Machine

/-- The offset of the instruction that the next step completes, if it completes one. -/
def completes (m : Machine) : List Nat :=
  match m.step.1 with
  | .advanced => (m.here?.map View.offset).toList
  | _ => []

/-- The offsets of the instructions that a run completes. -/
def runCompletes : Nat → Machine → List Nat
  | 0, _ => []
  | n + 1, m =>
    match m.step.1 with
    | .advanced => m.completes ++ runCompletes n m.step.2
    | _ => []

/-- The record after a request, if operations do not clear the statistics. -/
def recorded (m : Machine) (log : List Nat) : Request → List Nat
  | .step => log ++ m.completes
  | .run n => log ++ m.runCompletes n
  | .install .. | .uninstall _ => log
  | .touch t => t.record log

/-- The record after some requests, if operations do not clear the statistics. -/
def completed (m : Machine) (log : List Nat) : List Request → List Nat
  | [] => log
  | r :: rs => (m.serve r).completed (m.recorded log r) rs

theorem completes_of_advanced {m : Machine} {here : View} (hs : m.step.1 = .advanced)
    (hhere : m.here? = some here) :
    m.completes = [here.offset] := by
  rw [completes, hs, hhere]
  rfl

theorem completes_of_not_advanced {m : Machine} (hs : m.step.1 ≠ .advanced) : m.completes = [] := by
  unfold completes
  split
  · next h => exact absurd h hs
  · rfl

theorem runCompletes_of_not_advanced {m : Machine} (hs : m.step.1 ≠ .advanced) (n : Nat) :
    m.runCompletes n = [] := by
  cases n with
  | zero => rfl
  | succ n =>
    unfold runCompletes
    split
    · next h => exact absurd h hs
    · rfl

/-! ## Steps on record -/

/-- The touches that the operation and the instruction make in the next step. -/
inductive Made (m : Machine) (ts : List Touch) : Prop
  | advanced {m' : Machine} {here u : View} (hs : m.step = (.advanced, m')) (hhere : m.here? = some here)
    (hts : m'.state =
      settle m.program here.offset { (quiet m.world).state.touched m.program.entry ts with pc := .view u })
  | failed {m' : Machine} {e : RuntimeError} (hs : m.step = (.failed e, m'))
    (hts : m'.state.Agree ((quiet m.world).state.touched m.program.entry ts))
  | halted {m' : Machine} (hs : m.step = (.halted, m')) (hts : ts = [])

/-- What a step makes of the record: touches come first, then the instruction that it completes. -/
inductive StepRecord (m : Machine) (log : List Nat) : List Nat → Prop
  | mk {ts : List Touch} (h : m.Made ts) : StepRecord m log (recordAfter log ts ++ m.completes)

/-- What a run makes of the record: it ends with the first step that does not succeed, or at its limit. -/
inductive RunRecord : Nat → Machine → List Nat → List Nat → Prop
  | limit {m : Machine} {log : List Nat} : RunRecord 0 m log log
  | step {n : Nat} {m : Machine} {log log₁ log₂ : List Nat} (hs : m.step.1 = .advanced) (h : StepRecord m log log₁)
    (hrest : RunRecord n m.step.2 log₁ log₂) : RunRecord (n + 1) m log log₂
  | stop {n : Nat} {m : Machine} {log log₁ : List Nat} (hs : m.step.1 ≠ .advanced) (h : StepRecord m log log₁) :
    RunRecord (n + 1) m log log₁

/-- What a request makes of the record. -/
inductive RequestRecord (m : Machine) (log : List Nat) : Request → List Nat → Prop
  | step {log' : List Nat} (h : StepRecord m log log') : RequestRecord m log .step log'
  | run {n : Nat} {log' : List Nat} (h : RunRecord n m log log') : RequestRecord m log (.run n) log'
  | install {name : Bytes} {op : Operation} : RequestRecord m log (.install name op) log
  | uninstall {name : Bytes} : RequestRecord m log (.uninstall name) log
  | touch {t : Touch} : RequestRecord m log (.touch t) (t.record log)

/-- What requests make of the record. -/
inductive Record : Machine → List Request → List Nat → List Nat → Prop
  | done {m : Machine} {log : List Nat} : Record m [] log log
  | next {m : Machine} {r : Request} {rs : List Request} {log log₁ log₂ : List Nat}
    (h : RequestRecord m log r log₁)
    (hrest : Record (m.serve r) rs log₁ log₂) : Record m (r :: rs) log log₂

theorem program_step (m : Machine) : m.step.2.program = m.program := by rw [step_world]

theorem program_serve (m : Machine) (r : Request) : (m.serve r).program = m.program := by
  cases r with
  | step => exact program_step m
  | run n => exact run_keeps (I := fun m' => m'.program = m.program) (fun m' h => (program_step m').trans h) n rfl
  | install | uninstall | touch => rfl

section Exists

variable {P : Touch → Prop} {m : Machine}

theorem exists_made (hm : m.Acts P) (hP : P .resetStack) :
    ∃ ts, (∀ t ∈ ts, P t ∨ t.ByInstruction) ∧ m.Made ts := by
  have heff := step_effect hm hP
  generalize hs : m.step = r at heff
  cases heff with
  | lost hhere =>
    have hts : m.state.Agree ((quiet m.world).state.touched m.program.entry []) := rfl
    exact ⟨[], by simp, .failed hs hts⟩
  | halted hhere hi => exact ⟨[], by simp, .halted hs rfl⟩
  | @failed here ins trap ts w hhere hi hall hw =>
    have hts : w.state.Agree ((quiet m.world).state.touched m.program.entry ts) := by
      rw [hw]
      exact State.agree_halting _ false
    exact ⟨ts, fun t ht => .inl (hall t ht), .failed hs hts⟩
  | @advanced here u ins ts w hhere hi hall hu hw => exact ⟨ts, hall, .advanced hs hhere hw⟩

/-- **Every step can be put on record.** -/
theorem exists_stepRecord (hm : m.Acts P) (hP : P .resetStack) (log : List Nat) :
    ∃ log', StepRecord m log log' ∧ (¬ P .resetStats → log' = log ++ m.completes) := by
  obtain ⟨ts, hall, hmade⟩ := exists_made hm hP
  refine ⟨_, .mk hmade, ?_⟩
  intro hno
  have hne : ∀ t ∈ ts, t ≠ .resetStats := by
    rintro t ht rfl
    rcases hall _ ht with h | h
    · exact hno h
    · cases h
  rw [recordAfter_of_ne hne]

theorem exists_runRecord (hm : m.Acts P) (hP : P .resetStack) (n : Nat) (log : List Nat) :
    ∃ log', RunRecord n m log log' ∧ (¬ P .resetStats → log' = log ++ m.runCompletes n) := by
  induction n generalizing m log with
  | zero => exact ⟨log, .limit, fun _ => (List.append_nil log).symm⟩
  | succ n ih =>
    obtain ⟨log₁, h₁, hlog₁⟩ := exists_stepRecord hm hP log
    by_cases hs : m.step.1 = .advanced
    · obtain ⟨log₂, h₂, hlog₂⟩ := ih hm.step.2 log₁
      refine ⟨log₂, .step hs h₁ h₂, fun hno => ?_⟩
      rw [hlog₂ hno, hlog₁ hno, runCompletes, hs, List.append_assoc]
    · refine ⟨log₁, .stop hs h₁, fun hno => ?_⟩
      rw [hlog₁ hno, completes_of_not_advanced hs, runCompletes_of_not_advanced hs]

theorem Acts.serve {r : Request} (hm : m.Acts P) (hr : r.Installs P m.program.entry) : (m.serve r).Acts P := by
  cases r with
  | step => exact hm.step.2
  | run n => exact run_keeps (fun _ h => h.step.2) n hm
  | install name op => exact ⟨hm.1, hm.2.insert hr⟩
  | uninstall name => exact ⟨hm.1, hm.2.erase⟩
  | touch t => exact hm

/-- **Whatever a host asks for can be put on record.** -/
theorem exists_record (hm : m.Acts P) (hP : P .resetStack) {rs : List Request}
    (hrs : ∀ r ∈ rs, r.Installs P m.program.entry) (log : List Nat) :
    ∃ log', Record m rs log log' ∧ (¬ P .resetStats → log' = m.completed log rs) := by
  induction rs generalizing m log with
  | nil => exact ⟨log, .done, fun _ => rfl⟩
  | cons r rs ih =>
    obtain ⟨hr, hrest⟩ := List.forall_mem_cons.mp hrs
    have hprogram : (m.serve r).program = m.program := program_serve m r
    have hserve : ∃ log₁, RequestRecord m log r log₁ ∧ (¬ P .resetStats → log₁ = m.recorded log r) := by
      cases r with
      | step =>
        obtain ⟨log₁, h₁, hlog₁⟩ := exists_stepRecord hm hP log
        exact ⟨log₁, .step h₁, hlog₁⟩
      | run n =>
        obtain ⟨log₁, h₁, hlog₁⟩ := exists_runRecord hm hP n log
        exact ⟨log₁, .run h₁, hlog₁⟩
      | install name op => exact ⟨log, .install, fun _ => rfl⟩
      | uninstall name => exact ⟨log, .uninstall, fun _ => rfl⟩
      | touch t => exact ⟨t.record log, .touch, fun _ => rfl⟩
    obtain ⟨log₁, h₁, hlog₁⟩ := hserve
    obtain ⟨log₂, h₂, hlog₂⟩ := ih (hm.serve hr) (hprogram ▸ hrest) log₁
    refine ⟨log₂, .next h₁ h₂, fun hno => ?_⟩
    rw [hlog₂ hno, hlog₁ hno]
    rfl

end Exists

end Machine

/-! ## The figures of a record -/

/-- The figures of the state are those of the record, for a program of `n` instructions. -/
structure State.Tally (n : Nat) (log : List Nat) (s : State) : Prop where
  counts : ∀ i, s.counts[i]? = if i < n then some (log.count i) else none
  executed : s.executed = log.length
  covered : ∀ i, s.coverage.isSet i = true ↔ i ∈ log
  bounded : ∀ i ∈ log, i < n

namespace State.Tally

variable {n : Nat} {log : List Nat} {s t : State}

/-- Only three parts of the state matter. -/
theorem congr (h : s.Tally n log) (hcounts : t.counts = s.counts) (hexecuted : t.executed = s.executed)
    (hcoverage : t.coverage = s.coverage) : t.Tally n log where
  counts := by
    rw [hcounts]
    exact h.counts
  executed := hexecuted.trans h.executed
  covered := by
    rw [hcoverage]
    exact h.covered
  bounded := h.bounded

theorem resetStats (h : s.Tally n log) : s.resetStats.Tally n [] where
  counts := by
    intro i
    show (s.counts.map fun _ => 0)[i]? = _
    rw [Array.getElem?_map, h.counts i]
    split <;> rfl
  executed := rfl
  covered := by
    intro i
    have hreset : s.coverage.reset.isSet i = false := Coverage.isSet_reset _ i
    simp [State.resetStats, hreset]
  bounded := by simp

/-- A touch keeps the figures, unless it clears them together with the record. -/
theorem touch (h : s.Tally n log) (entry : View) (t : Touch) : (t.apply entry s).Tally n (t.record log) := by
  cases t with
  | write name v =>
    show (s.write name v).Tally n log
    unfold State.write
    split
    · exact h.congr rfl rfl rfl
    split
    · exact h.congr rfl rfl rfl
    · exact h.congr rfl rfl rfl
  | allocate name =>
    show ((s.allocate? name).getD s).Tally n log
    unfold State.allocate?
    split
    · exact h
    · exact h.congr rfl rfl rfl
  | resetStats => exact h.resetStats
  | push | pop | resetStack | halt | rewind => exact h.congr rfl rfl rfl

theorem touched (h : s.Tally n log) (entry : View) (ts : List Touch) :
    (s.touched entry ts).Tally n (recordAfter log ts) := by
  induction ts generalizing s log with
  | nil => exact h
  | cons t ts ih => exact ih (h.touch entry t)

/-- **The bookkeeping of a successful step puts it on record.** -/
theorem settle (h : s.Tally n log) {p : Program} {index : Nat} (hindex : index < n) :
    (Machine.settle p index s).Tally n (log ++ [index]) where
  counts := by
    intro i
    show (s.counts.modify index (· + 1))[i]? = _
    rw [Array.getElem?_modify, h.counts i, List.count_append, List.count_singleton]
    by_cases hi : index = i
    · subst hi
      simp [hindex]
    · simp [hi]
  executed := by
    show s.executed + 1 = _
    rw [h.executed, List.length_append, List.length_singleton]
  covered := by
    intro i
    show (s.coverage.set index).isSet i = true ↔ _
    rw [Coverage.isSet_set, Bool.or_eq_true, h.covered, beq_iff_eq, List.mem_append, List.mem_singleton, eq_comm]
  bounded := by
    intro i hi
    rcases List.mem_append.mp hi with hi | hi
    · exact h.bounded i hi
    · rw [List.mem_singleton.mp hi]
      exact hindex

end State.Tally

namespace Machine

variable {m : Machine} {log log' : List Nat}

/-- Allocation changes the registers only. -/
theorem allocateAll_registers {names : List Bytes} {s s' : State} (h : allocateAll s names = .ok s') :
    s' = { s with registers := s'.registers } := by
  induction names generalizing s with
  | nil =>
    obtain rfl := Except.ok.inj h
    rfl
  | cons name names ih =>
    rw [allocateAll] at h
    unfold State.allocate? at h
    split at h
    · next ht =>
      split at ht
      · cases ht
      · cases ht
        have hrest := ih h
        exact hrest
    · cases h

theorem create_tally {serial : Nat} {registers : List Bytes} {host : Table} {console : Console} {controller : Form}
    (h : create serial registers host console controller = .ok m) : m.state.Tally m.program.size [] := by
  unfold create at h
  obtain ⟨s, hs, h⟩ := bind_eq_ok h
  obtain ⟨program, -, h⟩ := bind_eq_ok h
  obtain rfl := Except.ok.inj h
  have hregisters := allocateAll_registers hs
  refine ⟨?_, congrArg State.executed hregisters, ?_, by simp⟩
  · intro i
    show (Array.replicate program.size 0)[i]? = _
    rw [Array.getElem?_replicate, List.count_nil]
  · intro i
    show s.coverage.isSet i = true ↔ _
    have hcoverage : s.coverage = {} := congrArg State.coverage hregisters
    rw [hcoverage, Coverage.isSet_empty]
    simp

/-- **A step keeps the figures with the record.** -/
theorem StepRecord.tally (h : StepRecord m log log') (hm : m.state.Tally m.program.size log) :
    m.step.2.state.Tally m.program.size log' := by
  obtain @⟨ts, hmade⟩ := h
  have hquiet : (quiet m.world).state.Tally m.program.size log := hm.congr rfl rfl rfl
  have htouched := hquiet.touched m.program.entry ts
  cases hmade with
  | @advanced m' here u hs hhere hts =>
    have hindex : here.offset < m.program.size := by
      cases stepped_of_eq hs with
      | @advanced here' ins w hhere' hi hx =>
        obtain rfl := Option.some.inj (hhere.symm.trans hhere')
        exact (Array.getElem?_eq_some_iff.mp hi).1
    have hjump : State.Tally m.program.size (recordAfter log ts)
        { (quiet m.world).state.touched m.program.entry ts with pc := .view u } := htouched.congr rfl rfl rfl
    rw [completes_of_advanced (congrArg Prod.fst hs) hhere, hs, hts]
    exact hjump.settle hindex
  | @failed m' e hs hts =>
    rw [completes_of_not_advanced (by simp [hs]), List.append_nil, hs, hts.eq]
    exact htouched.congr rfl rfl rfl
  | @halted m' hs hts =>
    subst hts
    rw [completes_of_not_advanced (by simp [hs]), List.append_nil, hs]
    cases stepped_of_eq hs with
    | halted => exact hm

theorem RunRecord.tally {n : Nat} (h : RunRecord n m log log') (hm : m.state.Tally m.program.size log) :
    (m.run n).2.2.state.Tally m.program.size log' := by
  induction h with
  | limit => exact hm
  | @step n m log log₁ log₂ hs h _ ih =>
    have hstep := h.tally hm
    rw [program_step] at ih
    rw [run_succ_of_advanced hs]
    exact ih hstep
  | @stop n m log log₁ hs h =>
    rw [run_succ_of_not_advanced hs]
    exact h.tally hm

theorem RequestRecord.tally {r : Request} (h : RequestRecord m log r log')
    (hm : m.state.Tally m.program.size log) :
    (m.serve r).state.Tally m.program.size log' := by
  cases h with
  | step h => exact h.tally hm
  | run h => exact h.tally hm
  | install => exact hm
  | uninstall => exact hm
  | @touch t => exact hm.touch m.program.entry t

/-- **Requests keep the figures with the record.** -/
theorem Record.tally {rs : List Request} (h : Record m rs log log') (hm : m.state.Tally m.program.size log) :
    (m.serveAll rs).program = m.program ∧ (m.serveAll rs).state.Tally m.program.size log' := by
  induction h with
  | done => exact ⟨rfl, hm⟩
  | @next m r rs log log₁ log₂ h _ ih =>
    have hserve := h.tally hm
    rw [program_serve] at ih
    exact ih hserve

end Machine

/-! ## What is reported -/

namespace State.Tally

variable {n : Nat} {log : List Nat} {s : State}

theorem counts_eq (h : s.Tally n log) : s.counts.toList = (List.range n).map log.count := by
  refine List.ext_getElem? fun i => ?_
  rw [Array.getElem?_toList, h.counts i, List.getElem?_map]
  by_cases hi : i < n
  · simp [hi]
  · simp [hi]

theorem getD_counts (h : s.Tally n log) (i : Nat) : (s.counts[i]?).getD 0 = log.count i := by
  rw [h.counts i]
  by_cases hi : i < n
  · rw [if_pos hi]
    rfl
  · rw [if_neg hi]
    exact (List.count_eq_zero.mpr fun hmem => hi (h.bounded i hmem)).symm

theorem isSet_iff (h : s.Tally n log) (i : Nat) : s.coverage.isSet i = true ↔ 0 < (s.counts[i]?).getD 0 := by
  rw [h.getD_counts, h.covered, List.count_pos_iff]

theorem countP_lt_succ (log : List Nat) (n : Nat) :
    log.countP (fun i => decide (i < n + 1)) = log.countP (fun i => decide (i < n)) + log.count n := by
  induction log with
  | nil => rfl
  | cons i log ih =>
    rw [List.countP_cons, List.countP_cons, List.count_cons, ih]
    by_cases hi : i = n
    · subst hi
      simp
      omega
    · have hiff : i < n + 1 ↔ i < n := by omega
      simp only [hiff, beq_iff_eq, hi, if_false]
      omega

/-- The entries of a record below a bound, counted one by one. -/
theorem foldl_count (log : List Nat) (n : Nat) :
    ((List.range n).map log.count).foldl (· + ·) 0 = log.countP (· < n) := by
  induction n with
  | zero => simp
  | succ n ih =>
    rw [List.range_succ, List.map_append, List.foldl_append, ih, countP_lt_succ]
    rfl

theorem executed_eq (h : s.Tally n log) : s.executed = s.counts.foldl (· + ·) 0 := by
  rw [← Array.foldl_toList, h.counts_eq, foldl_count, h.executed]
  refine (List.countP_eq_length.mpr fun i hi => ?_).symm
  simpa using h.bounded i hi

/-- All that is counted as covered. -/
theorem countP_eq (h : s.Tally n log) :
    (List.range n).countP s.coverage.isSet = s.counts.toList.countP (0 < ·) := by
  rw [h.counts_eq, List.countP_map]
  refine List.countP_congr fun i _ => ?_
  rw [h.covered]
  simp

end State.Tally

namespace Machine

/-- Everything that is reported about the steps of a machine fits the record of them. -/
structure Consistent (m : Machine) (log : List Nat) : Prop where
  /-- There is a count for each instruction: how often it is on record. -/
  counts : ∀ i, m.state.counts[i]? = if i < m.program.size then some (log.count i) else none
  /-- The number of steps is the sum of the counts. -/
  executed : m.state.executed = m.state.counts.foldl (· + ·) 0
  /-- What has a positive count is covered, and nothing else. -/
  covered : ∀ i, m.state.coverage.isSet i = true ↔ 0 < (m.state.counts[i]?).getD 0
  inside : ∀ i, m.program.size ≤ i → m.state.coverage.isSet i = false
  /-- The number of positive counts, in all the ways in which it is reported. -/
  stats : m.stats.covered = m.state.counts.toList.countP (0 < ·)
  profile : (m.profile 0).length = m.state.counts.toList.countP (0 < ·)
  missing : m.program.size - (m.state.coverage.missing m.program.size).length =
    m.state.counts.toList.countP (0 < ·)
  report : ∃ rest, coverageText m =
    concat ["coverage: ", decimal (m.state.counts.toList.countP (0 < ·)), "/", decimal m.program.size, "\n", rest]

variable {m m' : Machine} {log : List Nat}

theorem length_profile (m : Machine) :
    (m.profile 0).length = (List.range m.program.size).countP fun i => (m.state.counts[i]?).getD 0 != 0 := by
  have hzip : m.program.instructions.toList.zipIdx.map (·.2) = List.range m.program.size := by
    rw [List.zipIdx_map_snd, List.range_eq_range', Array.length_toList]
    rfl
  rw [m.profile_perm.length_eq, executedInstructions, ← List.countP_eq_length_filter, List.countP_map, ← hzip,
    List.countP_map]
  rfl

theorem length_missing (c : Coverage) (n : Nat) : n - (c.missing n).length = (List.range n).countP c.isSet := by
  have hsplit := List.length_eq_countP_add_countP c.isSet (l := List.range n)
  rw [List.length_range] at hsplit
  have hmissing : (c.missing n).length = (List.range n).countP fun i => decide ¬ c.isSet i = true := by
    rw [Coverage.missing, ← List.countP_eq_length_filter]
    refine List.countP_congr fun i _ => ?_
    simp
  omega

theorem consistent_of_tally (h : m.state.Tally m.program.size log) : m.Consistent log := by
  have hpositive := h.countP_eq
  have hmissing : m.program.size - (m.state.coverage.missing m.program.size).length =
      m.state.counts.toList.countP (0 < ·) := (length_missing _ _).trans hpositive
  have hbound : ∀ i, m.state.coverage.isSet i = true → i < m.program.size :=
    fun i hi => h.bounded i ((h.covered i).mp hi)
  refine ⟨h.counts, h.executed_eq, h.isSet_iff, ?_, ?_, ?_, hmissing, ?_⟩
  · intro i hi
    rw [Bool.eq_false_iff]
    intro hset
    have := hbound i hset
    omega
  · exact (Coverage.size_eq_countP hbound).trans hpositive
  · rw [length_profile, ← hpositive]
    refine List.countP_congr fun i _ => ?_
    rw [h.isSet_iff, bne_iff_ne, Nat.pos_iff_ne_zero]
  · unfold coverageText
    dsimp only
    rw [hmissing]
    exact ⟨_, rfl⟩

/-- **The statistics of a machine stay consistent.**  Let a machine be created whose operations touch its state
only in ways that `P` allows, and let its host ask for steps and runs, touch the state in any way, and install
operations of that kind.  Then there is a record of the instructions that were completed since the statistics were
last cleared, which is just the list of them if `P` does not allow operations to clear the statistics.  And for
every record of these requests the counts, the number of steps, the coverage and all that is reported about them
are those of the record. -/
theorem statistics_consistent {serial : Nat} {registers : List Bytes} {host : Table} {console : Console}
    {controller : Form} (h : create serial registers host console controller = .ok m) {P : Touch → Prop}
    (hP : P .resetStack) (hh : host.Acts P m.program.entry) {rs : List Request}
    (hrs : ∀ r ∈ rs, r.Installs P m.program.entry) :
    (∃ log, Record m rs [] log ∧ (¬ P .resetStats → log = m.completed [] rs)) ∧
      ∀ log, Record m rs [] log → (m.serveAll rs).Consistent log := by
  refine ⟨exists_record (acts_of_create h hh) hP hrs [], ?_⟩
  intro log hrecord
  obtain ⟨hprogram, htally⟩ := hrecord.tally (create_tally h)
  rw [← hprogram] at htally
  exact consistent_of_tally htally

/-- A run fails at the second instruction; the statistics are cleared; a failure between two rewinds and a step
that has lost its place follow.  Operations may do anything but clear the statistics. -/
theorem statistics_consistent_cleared : ∃ controller m rs,
    Source.readOne [⟨[], utf8 "((assign x (const 1)) (perform (op give-up)) (goto (label end)) end)"⟩] .form =
      (some controller, none) ∧
    Machine.create 0 [utf8 "x"] ⟨[(utf8 "give-up", Host.fail ⟨utf8 "no"⟩)]⟩ {} controller = .ok m ∧
    rs = [.run 5, .touch .resetStats, .touch .rewind, .step, .step, .touch .rewind, .step,
      .touch (.write pcName .nil), .step] ∧
    m.completed [] rs = [0, 0] ∧ (m.serveAll rs).Consistent [0, 0] := by
  obtain ⟨controller, m, rs, hread, hcreate, hrs, hcompleted⟩ : ∃ controller m rs,
      Source.readOne [⟨[], utf8 "((assign x (const 1)) (perform (op give-up)) (goto (label end)) end)"⟩] .form =
        (some controller, none) ∧
      Machine.create 0 [utf8 "x"] ⟨[(utf8 "give-up", Host.fail ⟨utf8 "no"⟩)]⟩ {} controller = .ok m ∧
      rs = [.run 5, .touch .resetStats, .touch .rewind, .step, .step, .touch .rewind, .step,
        .touch (.write pcName .nil), .step] ∧
      m.completed [] rs = [0, 0] := ⟨_, _, _, rfl, rfl, rfl, rfl⟩
  have hhost : Table.Acts (· ≠ .resetStats) m.program.entry ⟨[(utf8 "give-up", Host.fail ⟨utf8 "no"⟩)]⟩ := by
    refine Table.acts_of_forall (List.forall_mem_singleton.mpr fun _ _ => ?_)
    exact ⟨[], by simp, rfl⟩
  have hinstalls : ∀ r ∈ rs, r.Installs (· ≠ .resetStats) m.program.entry := by
    rw [hrs]
    simp [Request.Installs]
  obtain ⟨⟨log, hrecord, hlog⟩, hall⟩ := statistics_consistent hcreate (by simp) hhost hinstalls
  have hlog' : log = [0, 0] := (hlog (by simp)).trans hcompleted
  rw [hlog'] at hrecord
  exact ⟨controller, m, rs, hread, hcreate, hrs, hcompleted, hall _ hrecord⟩

end Machine

end RegisterMachine
