import RegisterMachine.Proofs.Hosting
import RegisterMachine.Proofs.Shapes

/-!
# Names that are there and names that are missing

* `State.has_iff`: a register exists if it is `pc`, `flag` or an allocated one.
* `State.names_touched`, `Machine.names_step`: registers never go away.
* `Machine.writeAll_of_has`: a host can write to registers that are there.
* `Trap.Tells`: what a trap says about the names that the instruction looked up.
* `execute_tells`: an instruction complains about a register only if it refers to it and it does not exist, and
  about an operation only if it is in no table; and then it has done nothing.
-/

namespace RegisterMachine

/-! ## Names of registers -/

namespace State

variable {s s' : State} {name r : Bytes}

theorem has_iff : s.has r = true ↔ r = pcName ∨ r = flagName ∨ r ∈ s.names := by
  unfold State.has State.read?
  by_cases hpc : r = pcName
  · simp [hpc]
  rw [if_neg (by simpa using hpc)]
  by_cases hflag : r = flagName
  · simp [hflag]
  rw [if_neg (by simpa using hflag), List.lookup_isSome_iff, or_iff_right hpc, or_iff_right hflag, State.names,
    List.mem_map]
  exact exists_congr fun e => and_congr_right fun _ => by rw [beq_iff_eq, eq_comm]

theorem names_write (s : State) (name : Bytes) (v : Value) : (s.write name v).names = s.names := by
  unfold State.write
  split
  · rfl
  split
  · rfl
  show (setEntry name v s.registers).map (·.1) = _
  rw [setEntry, List.map_map]
  refine List.map_congr_left fun e _ => ?_
  show (if e.1 == name then (e.1, v) else e).1 = e.1
  split <;> rfl

/-- What `s` is with one more register. -/
theorem allocate?_of_not_has (h : s.has name = false) :
    s.allocate? name = some { s with registers := s.registers ++ [(name, .nil)] } := by
  unfold State.allocate?
  rw [if_neg (by simp [h])]

theorem has_mono (h : s.names ⊆ s'.names) (hr : s.has r = true) : s'.has r = true := by
  rw [has_iff] at hr ⊢
  rcases hr with hr | hr | hr
  · exact .inl hr
  · exact .inr (.inl hr)
  · exact .inr (.inr (h hr))

theorem has_antitone (h : s.names ⊆ s'.names) (hr : s'.has r = false) : s.has r = false := by
  refine Bool.eq_false_iff.mpr fun hhas => ?_
  have hhas' := has_mono h hhas
  rw [hr] at hhas'
  cases hhas'

end State

theorem State.has_write (s : State) (name r : Bytes) (v : Value) : (s.write name v).has r = s.has r := by
  rw [Bool.eq_iff_iff, State.has_iff, State.has_iff, State.names_write]

/-- The state after some writes. -/
def State.writes (s : State) (values : List (Bytes × Value)) : State := values.foldl (fun s e => s.write e.1 e.2) s

theorem State.names_writes (s : State) (values : List (Bytes × Value)) : (s.writes values).names = s.names := by
  induction values generalizing s with
  | nil => rfl
  | cons e rest ih => exact (ih (s.write e.1 e.2)).trans (State.names_write s e.1 e.2)

/-- A host that writes to registers that are there succeeds. -/
theorem Machine.writeAll_of_has {m : Machine} {values : List (Bytes × Value)}
    (h : ∀ e ∈ values, m.state.has e.1 = true) :
    m.writeAll values = (.ok (), m.withState (m.state.writes values)) := by
  induction values generalizing m with
  | nil => rfl
  | cons e rest ih =>
    obtain ⟨he, hrest⟩ := List.forall_mem_cons.mp h
    rw [Machine.writeAll, if_pos he]
    exact ih fun e' he' => (State.has_write m.state e.1 e'.1 e.2).trans (hrest e' he')

theorem Touch.names_apply (entry : View) (s : State) (t : Touch) : s.names <+: (t.apply entry s).names := by
  cases t with
  | write name v =>
    exact ⟨[], (List.append_nil _).trans (State.names_write s name v).symm⟩
  | allocate name =>
    show _ <+: ((s.allocate? name).getD s).names
    unfold State.allocate?
    split
    · exact List.prefix_refl _
    · rw [Option.getD_some, State.names, State.names, List.map_append]
      exact List.prefix_append _ _
  | push | pop | resetStack | halt | rewind | resetStats => exact List.prefix_refl _

theorem State.names_touched (s : State) (entry : View) (ts : List Touch) :
    s.names <+: (s.touched entry ts).names :=
  State.touched_keeps (I := fun t => s.names <+: t.names) (P := fun _ => True)
    (fun _ t _ h => h.trans (t.names_apply entry _)) (fun _ _ => trivial) (List.prefix_refl _)

/-- A step takes no register away. -/
theorem Machine.names_step {P : Touch → Prop} {m : Machine} (hm : m.Acts P) (hP : P .resetStack) :
    m.state.names <+: m.step.2.state.names := by
  have heff := step_effect hm hP
  generalize m.step = r at heff
  cases heff with
  | lost => exact List.prefix_refl _
  | halted => exact List.prefix_refl _
  | failed _ _ _ hw =>
    show _ <+: State.names (World.state _)
    rw [hw]
    exact State.names_touched (quiet m.world).state ..
  | advanced _ _ _ _ hw =>
    show _ <+: State.names (World.state _)
    rw [hw]
    exact State.names_touched (quiet m.world).state ..

/-! ## What a trap tells -/

/-- The register that a trap complains about, if it is not there. -/
def Trap.missingRegister? : Trap → Option Bytes
  | unknownRegister name => some name
  | operand _ _ inner => inner.missingRegister?
  | _ => none

/-- The register that a step misses. -/
def RuntimeError.missingRegister? : RuntimeError → Option Bytes
  | lost _ => none
  | trapped _ _ trap => trap.missingRegister?

/-- The trap comes from an operation that was called. -/
def Trap.byOperation : Trap → Bool
  | failed .. | panicked .. => true
  | _ => false

/-- What a trap says about an instruction that refers to these registers and leads from one world to another. -/
structure Trap.Tells (find : Bytes → Option Operation) (registers : List Bytes) (w w' : World) (t : Trap) :
    Prop where
  /-- A register that is complained about is referred to and does not exist. -/
  missing : ∀ z, t.missingRegister? = some z → z ∈ registers ∧ w.state.has z = false
  /-- An operation that is complained about is not there. -/
  notFound : ∀ f, t = .operationNotFound f → find f = none
  /-- Unless an operation was called, nothing was done. -/
  unchanged : t.byOperation = false → w' = w

section Tells

variable {find : Bytes → Option Operation} {registers : List Bytes} {w w' : World} {t : Trap}

/-- A trap that complains about no name. -/
theorem tells_other (hm : t.missingRegister? = none) (hn : ∀ f, t ≠ .operationNotFound f) :
    t.Tells find registers w w where
  missing z hz := by
    rw [hm] at hz
    cases hz
  notFound f hf := absurd hf (hn f)
  unchanged _ := rfl

/-- A trap that complains about a register that is not there. -/
theorem tells_missing {name : Bytes} (hmem : name ∈ registers) (hnone : w.state.read? name = none)
    (ht : t.missingRegister? = some name) (hn : ∀ f, t ≠ .operationNotFound f) :
    t.Tells find registers w w where
  missing z hz := by
    obtain rfl := Option.some.inj (ht.symm.trans hz)
    exact ⟨hmem, by rw [State.has, hnone]; rfl⟩
  notFound f hf := absurd hf (hn f)
  unchanged _ := rfl

/-- A trap of an operation that was called. -/
theorem tells_byOperation (ht : t.byOperation = true) : t.Tells find registers w w' := by
  cases t with
  | failed | panicked => exact ⟨by simp [Trap.missingRegister?], by simp, by simp [Trap.byOperation]⟩
  | _ => cases ht

/-- **What the trap of an instruction tells.** -/
theorem execute_tells {program : Program} {here : View} {code : Option Code}
    (h : execute program find here code w = (.error t, w')) :
    t.Tells find ((code.map Code.registers).getD []) w w' := by
  cases code with
  | none =>
    cases h
    exact tells_other rfl (by simp)
  | some code =>
    have hfailed := execute_error h
    have hprepared := prepared program find code w
    generalize prepare program find code w = r at hfailed hprepared
    cases hprepared with
    | given => cases hfailed
    | trapped hneed =>
      cases hfailed
      rcases Code.need_error ⟨w.state.flag, rfl⟩ hneed with ⟨name, hmem, hnone, rfl⟩ | rfl | ⟨name, rfl⟩ |
        ⟨name, v, rfl⟩
      · exact tells_missing hmem hnone rfl (by simp)
      · exact tells_other rfl (by simp)
      · exact tells_other rfl (by simp)
      · exact tells_other rfl (by simp)
    | notFound _ hop =>
      cases hfailed
      refine ⟨by simp [Trap.missingRegister?], ?_, fun _ => rfl⟩
      rintro f ⟨⟩
      exact hop
    | operand hneed _ hargs =>
      cases hfailed
      obtain ⟨name, hmem, hnone, i, rfl⟩ := operandValues_error hargs
      rw [Code.operands_of_need hneed] at hmem
      exact tells_missing (List.mem_append_right _ hmem) hnone rfl (by simp)
    | @called c op args _ _ _ =>
      have hresult := (Prod.mk.inj hfailed).1
      refine tells_byOperation ?_
      generalize (op args w).1 = o at hresult
      cases o <;> cases hresult <;> rfl

end Tells

end RegisterMachine
