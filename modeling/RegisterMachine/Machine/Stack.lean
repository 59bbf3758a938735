import RegisterMachine.Value.Basic

/-!
# The stack

The control stack and the history of its depth.

* `Stack.push`, `Stack.pop?`, `Stack.reset`.
* `pushes` counts pushes and `maxDepth` is the greatest depth since the statistics were last cleared.
-/

namespace RegisterMachine

/-- The values on the stack, top first, and how many they are, with the number of pushes and the greatest depth so
far. -/
structure Stack where
  values : List Value := []
  depth : Nat := 0
  pushes : Nat := 0
  maxDepth : Nat := 0
  depth_eq : depth = values.length := by rfl

namespace Stack

/-- One more value. -/
def push (s : Stack) (v : Value) : Stack where
  values := v :: s.values
  depth := s.depth + 1
  pushes := s.pushes + 1
  maxDepth := max s.maxDepth (s.depth + 1)
  depth_eq := by rw [s.depth_eq, List.length_cons]

/-- The top value and the stack without it, if there is one. -/
def pop? (s : Stack) : Option (Value × Stack) :=
  match h : s.values with
  | [] => none
  | v :: rest =>
    have h' : s.depth - 1 = rest.length := by rw [s.depth_eq, h, List.length_cons, Nat.add_sub_cancel]
    some (v, ⟨rest, s.depth - 1, s.pushes, s.maxDepth, h'⟩)

/-- Empty, with the statistics cleared. -/
def reset : Stack := {}

/-- The statistics cleared and the values kept. -/
def resetStats (s : Stack) : Stack := { s with pushes := 0, maxDepth := s.depth }

/-- The values, bottom first. -/
def bottomFirst (s : Stack) : List Value := s.values.reverse

end Stack

end RegisterMachine
