import Mathlib.Data.List.DropRight
import RegisterMachine.Proofs.Statistics
import RegisterMachine.Proofs.StepPhases
import RegisterMachine.Proofs.Walking

/-!
# The history of the stack

Everything that happens to the stack of a machine is a touch: of the host, of an operation, or of an instruction
that saves or restores.  The touches since the machine was created are its history, which the machine itself does
not keep.

* `Touch.depth`, `depthAfter`: how deep a history leaves the stack.
* `Touch.restarts`, `untilRestart`, `sinceRestart`: a history, cut behind the last touch that restarts the
  statistics.
* `Stack.TrueTo h s`: the statistics of a stack are those of the history `h`.
* `Machine.StepHistory`, `Machine.RunHistory`, `Machine.History`: what steps, runs and requests add to the history.
* `Machine.stack_statistics`: the statistics of the stack are true whatever a host asks for.
-/

namespace RegisterMachine

/-! ## Histories -/

/-- How deep the stack is after a touch.  Nothing is popped from an empty stack. -/
def Touch.depth (d : Nat) : Touch → Nat
  | push _ => d + 1
  | pop => d - 1
  | resetStack => 0
  | _ => d

/-- How deep the stack is after a history. -/
def depthAfter (h : List Touch) : Nat := h.foldl Touch.depth 0

/-- The touch puts a value on the stack. -/
def Touch.isPush : Touch → Bool
  | push _ => true
  | _ => false

/-- The touch restarts the statistics of the stack, with or without emptying it. -/
def Touch.restarts : Touch → Bool
  | resetStack => true
  | resetStats => true
  | _ => false

/-- The history up to the last restart, which is included; nothing if there was none. -/
def untilRestart (h : List Touch) : List Touch := h.rdropWhile fun t => !t.restarts

/-- The history since the last restart. -/
def sinceRestart (h : List Touch) : List Touch := h.rtakeWhile fun t => !t.restarts

theorem untilRestart_append_sinceRestart (h : List Touch) : untilRestart h ++ sinceRestart h = h :=
  List.rdropWhile_append_rtakeWhile ..

theorem untilRestart_prefix_self (h : List Touch) : untilRestart h <+: h := List.rdropWhile_prefix ..

theorem depthAfter_concat (h : List Touch) (t : Touch) : depthAfter (h ++ [t]) = t.depth (depthAfter h) := by
  rw [depthAfter, List.foldl_append]
  rfl

/-- Touches make the stack at most as much deeper as there are pushes among them. -/
theorem foldl_depth_le (d : Nat) (h : List Touch) : h.foldl Touch.depth d ≤ d + h.countP Touch.isPush := by
  induction h generalizing d with
  | nil => exact Nat.le_refl d
  | cons t h ih =>
    have hstep : t.depth d ≤ d + if t.isPush then 1 else 0 := by
      cases t <;> simp [Touch.depth, Touch.isPush]
    have hrest := ih (t.depth d)
    rw [List.foldl_cons, List.countP_cons]
    omega

/-- What a pop does to the statistics; with an empty stack it does nothing, and subtraction neither. -/
theorem Stack.statistics_pop (s : Stack) : ((s.pop?.map (·.2)).getD s).depth = s.depth - 1 ∧
    ((s.pop?.map (·.2)).getD s).pushes = s.pushes ∧ ((s.pop?.map (·.2)).getD s).maxDepth = s.maxDepth := by
  unfold Stack.pop?
  split
  · next hempty =>
    have hzero : s.depth = 0 := by rw [s.depth_eq, hempty, List.length_nil]
    exact ⟨by show s.depth = s.depth - 1; rw [hzero], rfl, rfl⟩
  · exact ⟨rfl, rfl, rfl⟩

/-! ## Statistics that are true to a history -/

/-- The statistics of the stack are those of the history.  A moment since the last restart is a beginning of the
history that goes at least as far as the restart. -/
structure Stack.TrueTo (h : List Touch) (s : Stack) : Prop where
  depth : s.depth = depthAfter h
  pushes : s.pushes = (sinceRestart h).countP Touch.isPush
  reached : ∃ p, untilRestart h <+: p ∧ p <+: h ∧ depthAfter p = s.maxDepth
  greatest : ∀ p, untilRestart h <+: p → p <+: h → depthAfter p ≤ s.maxDepth

namespace Stack.TrueTo

variable {h : List Touch} {s s' : Stack} {t : Touch}

theorem depth_le (hs : s.TrueTo h) : s.depth ≤ s.maxDepth := by
  rw [hs.depth]
  exact hs.greatest h (untilRestart_prefix_self h) (List.prefix_refl h)

/-- The greatest depth, by the number of pushes. -/
theorem maxDepth_le (hs : s.TrueTo h) : s.maxDepth ≤ s.pushes + depthAfter (untilRestart h) := by
  obtain ⟨p, ⟨q, rfl⟩, hp, hdepth⟩ := hs.reached
  have hq : q <+: sinceRestart h := by
    have hcut : untilRestart h ++ q <+: untilRestart h ++ sinceRestart h := by
      rwa [untilRestart_append_sinceRestart]
    exact (List.prefix_append_right_inj _).mp hcut
  have hcount : q.countP Touch.isPush ≤ (sinceRestart h).countP Touch.isPush := hq.sublist.countP_le
  have hle := foldl_depth_le (depthAfter (untilRestart h)) q
  rw [depthAfter, List.foldl_append] at hdepth
  rw [hs.pushes, ← hdepth, Nat.add_comm]
  exact Nat.le_trans hle (Nat.add_le_add_left hcount _)

/-- A restart: the only moment since is the present. -/
theorem restart (ht : t.restarts = true) (hdepth : s'.depth = depthAfter (h ++ [t])) (hpushes : s'.pushes = 0)
    (hmax : s'.maxDepth = s'.depth) : s'.TrueTo (h ++ [t]) := by
  have hno : ¬ (!t.restarts) = true := by simp [ht]
  have huntil : untilRestart (h ++ [t]) = h ++ [t] := List.rdropWhile_concat_neg _ _ _ hno
  have hsince : sinceRestart (h ++ [t]) = [] := List.rtakeWhile_concat_neg _ _ _ hno
  refine ⟨hdepth, ?_, ⟨h ++ [t], untilRestart_prefix_self _, List.prefix_refl _, ?_⟩, fun p hp hp' => ?_⟩
  · rw [hpushes, hsince]
    rfl
  · rw [hmax, hdepth]
  · rw [huntil] at hp
    rw [hp'.eq_of_length_le hp.length_le, hmax, hdepth]

/-- No restart: the present is one more moment. -/
theorem proceed (hs : s.TrueTo h) (ht : t.restarts = false) (hdepth : s'.depth = depthAfter (h ++ [t]))
    (hpushes : s'.pushes = s.pushes + if t.isPush then 1 else 0) (hmax : s'.maxDepth = max s.maxDepth s'.depth) :
    s'.TrueTo (h ++ [t]) := by
  have hyes : (!t.restarts) = true := by simp [ht]
  have huntil : untilRestart (h ++ [t]) = untilRestart h := List.rdropWhile_concat_pos _ _ _ hyes
  have hsince : sinceRestart (h ++ [t]) = sinceRestart h ++ [t] := List.rtakeWhile_concat_pos _ _ _ hyes
  have hpresent : untilRestart h <+: h ++ [t] := (untilRestart_prefix_self h).trans (List.prefix_append h [t])
  refine ⟨hdepth, ?_, ?_, fun p hp hp' => ?_⟩
  · rw [hpushes, hs.pushes, hsince, List.countP_append, List.countP_singleton]
  · rw [huntil, hmax]
    rcases Nat.le_total s.maxDepth s'.depth with hle | hle
    · exact ⟨h ++ [t], hpresent, List.prefix_refl _, by rw [Nat.max_eq_right hle, hdepth]⟩
    · obtain ⟨p, hp, hp', hreached⟩ := hs.reached
      exact ⟨p, hp, hp'.trans (List.prefix_append h [t]), by rw [Nat.max_eq_left hle, hreached]⟩
  · rw [huntil] at hp
    rw [hmax]
    rcases List.prefix_concat_iff.mp hp' with rfl | hp'
    · rw [← hdepth]
      exact Nat.le_max_right ..
    · exact Nat.le_trans (hs.greatest p hp hp') (Nat.le_max_left ..)

/-- A touch that leaves the stack alone. -/
theorem other (hs : s.TrueTo h) (ht : t.restarts = false) (hpush : t.isPush = false)
    (hdepth : t.depth (depthAfter h) = depthAfter h) : s.TrueTo (h ++ [t]) := by
  refine hs.proceed ht ?_ ?_ ?_
  · rw [depthAfter_concat, hdepth, hs.depth]
  · rw [hpush]
    rfl
  · exact (Nat.max_eq_left hs.depth_le).symm

/-- **Every touch is one more entry of the history.** -/
theorem touch {s : State} (hs : s.stack.TrueTo h) (entry : View) (t : Touch) :
    (t.apply entry s).stack.TrueTo (h ++ [t]) := by
  cases t with
  | write name v =>
    have hstack : (Touch.apply entry s (.write name v)).stack = s.stack := State.stack_write s name v
    rw [hstack]
    exact hs.other rfl rfl rfl
  | allocate name =>
    have hstack : (Touch.apply entry s (.allocate name)).stack = s.stack := by
      show ((s.allocate? name).getD s).stack = _
      unfold State.allocate?
      split <;> rfl
    rw [hstack]
    exact hs.other rfl rfl rfl
  | push v =>
    refine hs.proceed rfl ?_ rfl rfl
    rw [depthAfter_concat, ← hs.depth]
    rfl
  | pop =>
    obtain ⟨hdepth, hpushes, hmax⟩ := s.stack.statistics_pop
    refine hs.proceed rfl ?_ hpushes ?_
    · rw [depthAfter_concat, ← hs.depth]
      exact hdepth
    · have hle : s.stack.depth - 1 ≤ s.stack.maxDepth := Nat.le_trans (Nat.sub_le _ 1) hs.depth_le
      show ((s.stack.pop?.map (·.2)).getD s.stack).maxDepth = max _ ((s.stack.pop?.map (·.2)).getD s.stack).depth
      rw [hmax, hdepth, Nat.max_eq_left hle]
  | resetStack =>
    refine restart rfl ?_ rfl rfl
    rw [depthAfter_concat]
    rfl
  | resetStats =>
    refine restart rfl ?_ rfl rfl
    rw [depthAfter_concat]
    exact hs.depth
  | halt | rewind => exact hs.other rfl rfl rfl

theorem touched {s : State} (hs : s.stack.TrueTo h) (entry : View) (ts : List Touch) :
    (s.touched entry ts).stack.TrueTo (h ++ ts) := by
  induction ts generalizing s h with
  | nil =>
    rw [List.append_nil]
    exact hs
  | cons t ts ih =>
    rw [List.append_cons]
    exact ih (hs.touch entry t)

end Stack.TrueTo

/-! ## The history of a machine -/

namespace Machine

variable {m : Machine} {h ts : List Touch}

/-- The next step makes these touches: those of the operation that it calls, if it calls one, and then those that
its instruction makes by itself. -/
def StepHistory (m : Machine) (ts : List Touch) : Prop :=
  ∃ us, m.called.state = (quiet m.world).state.touched m.program.entry us ∧ (m.invoked? = none → us = []) ∧
    ts = us ++ m.own

/-- A run makes these touches.  It ends with the first step that does not succeed, or at its limit. -/
inductive RunHistory : Nat → Machine → List Touch → Prop
  | limit {m : Machine} : RunHistory 0 m []
  | step {n : Nat} {m : Machine} {ts us : List Touch} (hs : m.step.1 = .advanced) (h : m.StepHistory ts)
    (hrest : RunHistory n m.step.2 us) : RunHistory (n + 1) m (ts ++ us)
  | stop {n : Nat} {m : Machine} {ts : List Touch} (hs : m.step.1 ≠ .advanced) (h : m.StepHistory ts) :
    RunHistory (n + 1) m ts

/-- The machine makes these touches in answer to a request. -/
def RequestHistory (m : Machine) (ts : List Touch) : Request → Prop
  | .step => m.StepHistory ts
  | .run n => RunHistory n m ts
  | .install .. => ts = []
  | .uninstall _ => ts = []
  | .touch t => ts = [t]

/-- The machine makes these touches in answer to some requests. -/
inductive History : Machine → List Request → List Touch → Prop
  | done {m : Machine} : History m [] []
  | next {m : Machine} {r : Request} {rs : List Request} {ts us : List Touch} (h : m.RequestHistory ts r)
    (hrest : History (m.serve r) rs us) : History m (r :: rs) (ts ++ us)

/-! ### There is a history -/

section Exists

variable {P : Touch → Prop}

theorem exists_stepHistory (hm : m.Acts P) (hP : P .resetStack) : ∃ ts, m.StepHistory ts := by
  obtain ⟨us, -, hus, hnone⟩ := hm.called hP
  exact ⟨_, us, hus, hnone, rfl⟩

theorem exists_runHistory (hm : m.Acts P) (hP : P .resetStack) (n : Nat) : ∃ ts, RunHistory n m ts := by
  induction n generalizing m with
  | zero => exact ⟨[], .limit⟩
  | succ n ih =>
    obtain ⟨ts, hts⟩ := exists_stepHistory hm hP
    by_cases hs : m.step.1 = .advanced
    · obtain ⟨us, hus⟩ := ih hm.step.2
      exact ⟨ts ++ us, .step hs hts hus⟩
    · exact ⟨ts, .stop hs hts⟩

/-- **Whatever a host asks for makes a history.** -/
theorem exists_history (hm : m.Acts P) (hP : P .resetStack) {rs : List Request}
    (hrs : ∀ r ∈ rs, r.Installs P m.program.entry) : ∃ ts, History m rs ts := by
  induction rs generalizing m with
  | nil => exact ⟨[], .done⟩
  | cons r rs ih =>
    obtain ⟨hr, hrest⟩ := List.forall_mem_cons.mp hrs
    have hserve : ∃ ts, m.RequestHistory ts r := by
      cases r with
      | step => exact exists_stepHistory hm hP
      | run n => exact exists_runHistory hm hP n
      | install | uninstall => exact ⟨[], rfl⟩
      | touch t => exact ⟨[t], rfl⟩
    obtain ⟨ts, hts⟩ := hserve
    obtain ⟨us, hus⟩ := ih (hm.serve hr) (program_serve m r ▸ hrest)
    exact ⟨ts ++ us, .next hts hus⟩

end Exists

/-! ### The statistics stay true -/

/-- **A step keeps the statistics true.** -/
theorem StepHistory.trueTo (hts : m.StepHistory ts) (hm : m.state.stack.TrueTo h) :
    m.step.2.state.stack.TrueTo (h ++ ts) := by
  obtain ⟨us, hus, -, rfl⟩ := hts
  have hcalled : m.called.state.stack.TrueTo (h ++ us) := by
    have hquiet : (quiet m.world).state.stack.TrueTo h := hm
    rw [hus]
    exact hquiet.touched m.program.entry us
  have hidle (hcode : m.code? = none) : m.state.stack.TrueTo (h ++ (us ++ m.own)) := by
    have hown : m.own = [] := by rw [own, hcode]
    rw [called_of_no_code hcode] at hcalled
    rw [hown, List.append_nil]
    exact hcalled
  have hs := step_phases m
  generalize m.step = r at hs ⊢
  cases hs with
  | lost hhere => exact hidle (by rw [code?, hhere, Option.bind_none])
  | halted hhere hi => exact hidle (by rw [code?, hhere, Option.bind_some, hi, Option.bind_none])
  | failed hhere hi hown =>
    rw [hown, List.append_nil]
    exact hcalled
  | advanced hhere hi hown =>
    have htouched := hcalled.touched m.program.entry m.own
    rw [List.append_assoc] at htouched
    exact htouched

theorem RunHistory.trueTo {n : Nat} (hts : RunHistory n m ts) (hm : m.state.stack.TrueTo h) :
    (m.run n).2.2.state.stack.TrueTo (h ++ ts) := by
  induction hts generalizing h with
  | limit =>
    rw [List.append_nil]
    exact hm
  | @step n m ts us hs hstep _ ih =>
    rw [run_succ_of_advanced hs, ← List.append_assoc]
    exact ih (hstep.trueTo hm)
  | stop hs hstep =>
    rw [run_succ_of_not_advanced hs]
    exact hstep.trueTo hm

theorem RequestHistory.trueTo {r : Request} (hts : m.RequestHistory ts r) (hm : m.state.stack.TrueTo h) :
    (m.serve r).state.stack.TrueTo (h ++ ts) := by
  cases r with
  | step => exact StepHistory.trueTo hts hm
  | run n => exact RunHistory.trueTo hts hm
  | install | uninstall =>
    obtain rfl : ts = [] := hts
    rw [List.append_nil]
    exact hm
  | touch t =>
    obtain rfl : ts = [t] := hts
    exact hm.touch m.program.entry t

/-- **Requests keep the statistics true.** -/
theorem History.trueTo {rs : List Request} (hts : History m rs ts) (hm : m.state.stack.TrueTo h) :
    (m.serveAll rs).state.stack.TrueTo (h ++ ts) := by
  induction hts generalizing h with
  | done =>
    rw [List.append_nil]
    exact hm
  | @next m r rs ts us hr _ ih =>
    rw [← List.append_assoc]
    exact ih (RequestHistory.trueTo hr hm)

theorem create_trueTo {serial : Nat} {registers : List Bytes} {host : Table} {console : Console}
    {controller : Form}
    (hm : create serial registers host console controller = .ok m) : m.state.stack.TrueTo [] := by
  unfold create at hm
  obtain ⟨s, hs, hm⟩ := bind_eq_ok hm
  obtain ⟨program, -, hm⟩ := bind_eq_ok hm
  obtain rfl := Except.ok.inj hm
  have hstack : s.stack = .reset := congrArg State.stack (allocateAll_registers hs)
  show s.stack.TrueTo []
  rw [hstack]
  exact ⟨rfl, rfl, ⟨[], List.prefix_refl _, List.prefix_refl _, rfl⟩,
    fun p _ hp => by rw [List.prefix_nil.mp hp]; rfl⟩

/-- **The statistics of the stack are its true history.**  Let a machine be created whose operations touch its
state in any way that a host has, and let its host ask for steps and runs, touch the state and install such
operations.  Then there is a history of the touches that were made.  For every such history, with the last touch
that empties the stack or clears the statistics as its last restart, the number of pushes is that since the
restart; the greatest depth is reached at some moment since, with the moment right behind the restart, and never
passed; and it is at least the present depth and at most the number of pushes above the depth right behind the
restart. -/
theorem stack_statistics {serial : Nat} {registers : List Bytes} {host : Table} {console : Console}
    {controller : Form}
    (hm : create serial registers host console controller = .ok m) (hh : host.Acts (fun _ => True) m.program.entry)
    {rs : List Request} (hrs : ∀ r ∈ rs, r.Installs (fun _ => True) m.program.entry) :
    (∃ h, History m rs h) ∧ ∀ h, History m rs h →
      (m.serveAll rs).stats.depth = depthAfter h ∧
      (m.serveAll rs).state.stack.values.length = depthAfter h ∧
      (m.serveAll rs).stats.pushes = (sinceRestart h).countP Touch.isPush ∧
      (∃ p, untilRestart h <+: p ∧ p <+: h ∧ depthAfter p = (m.serveAll rs).stats.maxDepth) ∧
      (∀ p, untilRestart h <+: p → p <+: h → depthAfter p ≤ (m.serveAll rs).stats.maxDepth) ∧
      (m.serveAll rs).stats.depth ≤ (m.serveAll rs).stats.maxDepth ∧
      (m.serveAll rs).stats.maxDepth ≤ (m.serveAll rs).stats.pushes + depthAfter (untilRestart h) := by
  refine ⟨exists_history (acts_of_create hm hh) trivial hrs, fun h hhistory => ?_⟩
  have htrue := hhistory.trueTo (create_trueTo hm)
  rw [List.nil_append] at htrue
  exact ⟨htrue.depth, (Stack.depth_eq _).symm.trans htrue.depth, htrue.pushes, htrue.reached, htrue.greatest,
    htrue.depth_le, htrue.maxDepth_le⟩

/-- Two values are saved and the statistics cleared; one is restored and two are pushed by the host. -/
theorem stack_statistics_cleared : ∃ controller m rs h,
    Source.readOne [⟨[], utf8 "((save x) (save x) (restore x))"⟩] .form = (some controller, none) ∧
    Machine.create 0 [utf8 "x"] {} {} controller = .ok m ∧
    rs = [.run 2, .touch .resetStats, .step, .touch (.push (.int 1)), .touch (.push (.int 2))] ∧
    h = [.push .nil, .push .nil, .resetStats, .pop, .write (utf8 "x") .nil, .push (.int 1), .push (.int 2)] ∧
    History m rs h ∧ (sinceRestart h).countP Touch.isPush = 2 ∧ depthAfter (untilRestart h) = 2 ∧
    (m.serveAll rs).stats.pushes = 2 ∧ (m.serveAll rs).stats.maxDepth ≤ 2 + 2 ∧
    ∃ p, untilRestart h <+: p ∧ p <+: h ∧ depthAfter p = (m.serveAll rs).stats.maxDepth := by
  obtain ⟨controller, m, rs, h, hread, hcreate, hrs, hh, hhistory, hpushes, hdepth⟩ : ∃ controller m rs h,
      Source.readOne [⟨[], utf8 "((save x) (save x) (restore x))"⟩] .form = (some controller, none) ∧
      Machine.create 0 [utf8 "x"] {} {} controller = .ok m ∧
      rs = [.run 2, .touch .resetStats, .step, .touch (.push (.int 1)), .touch (.push (.int 2))] ∧
      h = [.push .nil, .push .nil, .resetStats, .pop, .write (utf8 "x") .nil, .push (.int 1), .push (.int 2)] ∧
      History m rs h ∧ (sinceRestart h).countP Touch.isPush = 2 ∧ depthAfter (untilRestart h) = 2 := by
    refine ⟨_, _, _, _, rfl, rfl, rfl, rfl, ?_, rfl, rfl⟩
    have hstep {m : Machine} {ts : List Touch} (hop : m.called.state = (quiet m.world).state) (hts : ts = m.own) :
        m.StepHistory ts := ⟨[], hop, fun _ => rfl, hts⟩
    show History _ _
        (([.push .nil] ++ ([.push .nil] ++ [])) ++ ([.resetStats] ++ ([.pop, .write (utf8 "x") .nil] ++
      ([.push (.int 1)] ++ ([.push (.int 2)] ++ [])))))
    exact .next (.step rfl (hstep rfl rfl) (.step rfl (hstep rfl rfl) .limit))
      (.next rfl (.next (hstep rfl rfl) (.next rfl (.next rfl .done))))
  have hhost : Table.Acts (fun _ => True) m.program.entry {} :=
    Table.acts_of_forall fun _ he => absurd he List.not_mem_nil
  have hinstalls : ∀ r ∈ rs, r.Installs (fun _ => True) m.program.entry := by
    rw [hrs]
    simp [Request.Installs]
  obtain ⟨-, -, hcount, hreached, -, -, hmax⟩ := (stack_statistics hcreate hhost hinstalls).2 h hhistory
  rw [hpushes] at hcount
  rw [hcount, hdepth] at hmax
  exact ⟨controller, m, rs, h, hread, hcreate, hrs, hh, hhistory, hpushes, hdepth, hcount, hmax, hreached⟩

end Machine

end RegisterMachine
