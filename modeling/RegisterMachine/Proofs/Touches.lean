import RegisterMachine.Machine.State

/-!
# Touches

A host changes the state of a machine between steps, the operations that it provides change it during a step, and
so does an instruction.  All of them have the same few means.

* `Touch`, `State.touched`: one change of the state, and changes one after the other.
* `Touch.ByInstruction`: the changes that instructions make by themselves.
* `State.write_keeps`: what a write to a register does not change.
* `State.touched_keeps`: what every touch keeps, touches one after the other keep.
-/

namespace RegisterMachine

/-! ## Writing to a register -/

namespace State

variable (s : State) (name : Bytes) (v : Value)

/-- A write changes `pc`, `flag` or the other registers only. -/
theorem write_keeps {α : Type} {f : State → α} (hpc : ∀ s v, f { s with pc := v } = f s)
    (hflag : ∀ s v, f { s with flag := v } = f s) (hregisters : ∀ s es, f { s with registers := es } = f s) :
    f (s.write name v) = f s := by
  unfold State.write
  split
  · exact hpc s v
  split
  · exact hflag s v
  · exact hregisters s _

theorem halting_write : (s.write name v).halting = s.halting :=
  write_keeps s name v (fun _ _ => rfl) (fun _ _ => rfl) fun _ _ => rfl

theorem executed_write : (s.write name v).executed = s.executed :=
  write_keeps s name v (fun _ _ => rfl) (fun _ _ => rfl) fun _ _ => rfl

theorem stack_write : (s.write name v).stack = s.stack :=
  write_keeps s name v (fun _ _ => rfl) (fun _ _ => rfl) fun _ _ => rfl

end State

/-! ## Touches -/

/-- A change of the state of a machine. -/
inductive Touch where
  | write (name : Bytes) (v : Value)
  | allocate (name : Bytes)
  | push (v : Value)
  | pop
  | resetStack
  | halt
  | rewind
  | resetStats

namespace Touch

/-- The state after a touch.  A register that is taken is not allocated again, and nothing is popped from an empty
stack. -/
def apply (entry : View) (s : State) : Touch → State
  | write name v => s.write name v
  | allocate name => (s.allocate? name).getD s
  | push v => { s with stack := s.stack.push v }
  | pop => { s with stack := (s.stack.pop?.map (·.2)).getD s.stack }
  | resetStack => { s with stack := .reset }
  | halt => { s with halting := true }
  | rewind => { s with halting := false, pc := .view entry }
  | resetStats => s.resetStats

/-- The touches that instructions make by themselves. -/
def ByInstruction : Touch → Prop
  | write .. | push _ | pop => True
  | _ => False

/-- A touch that leaves `pc` alone, or points it at the start of the program. -/
def SparesPc : Touch → Prop
  | write name _ => name ≠ pcName
  | _ => True

/-- What an instruction does by itself neither raises nor lowers the flag that asks to halt, and counts nothing. -/
theorem keeps_of_byInstruction {t : Touch} (ht : t.ByInstruction) (entry : View) (s : State) :
    (t.apply entry s).halting = s.halting ∧ (t.apply entry s).executed = s.executed := by
  cases t with
  | write name v => exact ⟨State.halting_write s name v, State.executed_write s name v⟩
  | push | pop => exact ⟨rfl, rfl⟩
  | allocate | resetStack | halt | rewind | resetStats => cases ht

end Touch

/-- The state after some touches. -/
def State.touched (s : State) (entry : View) (ts : List Touch) : State := ts.foldl (Touch.apply entry) s

theorem State.touched_append (s : State) (entry : View) (ts us : List Touch) :
    s.touched entry (ts ++ us) = (s.touched entry ts).touched entry us := List.foldl_append

/-- What every touch keeps, touches one after the other keep. -/
theorem State.touched_keeps {I : State → Prop} {P : Touch → Prop} {entry : View}
    (hI : ∀ s t, P t → I s → I (t.apply entry s)) {s : State} {ts : List Touch} (hts : ∀ t ∈ ts, P t) (hs : I s) :
    I (s.touched entry ts) := by
  induction ts generalizing s with
  | nil => exact hs
  | cons t ts ih =>
    obtain ⟨ht, hts⟩ := List.forall_mem_cons.mp hts
    exact ih hts (hI s t ht hs)

end RegisterMachine
