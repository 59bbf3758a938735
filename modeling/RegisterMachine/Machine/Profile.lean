import RegisterMachine.Machine.Basic

/-!
# Profiles

The executed instructions go into a heap, and the most often executed ones come out of it first.

* `Heap`: what is asked of a heap.  `Heap.ordered` keeps its elements in order.
* `Machine.profileBy h n`: up to `n` instructions, all of them unless `n` is positive, by means of the heap `h`.
* `Machine.profile n`: the same with the heap that keeps its elements in order.
-/

namespace RegisterMachine

/-! ## Heaps -/

/-- A store into which elements are put one by one and out of which they are taken one by one, the first one of an
order first. -/
structure Heap (α : Type) where
  Store : Type
  empty : Store
  push : Store → α → Store
  size : Store → Nat
  /-- The first element and the store without it. -/
  pop? : Store → Option (α × Store)

namespace Heap

variable {α : Type}

/-- The store with these elements, put in one after the other. -/
def fill (h : Heap α) (xs : List α) : h.Store := xs.foldl h.push h.empty

/-- Takes out up to `n` elements. -/
def drain (h : Heap α) : Nat → h.Store → List α
  | 0, _ => []
  | n + 1, s =>
    match h.pop? s with
    | some (x, s) => x :: drain h n s
    | none => []

/-- Puts an element behind those that come before it. -/
def place (before : α → α → Bool) (x : α) : List α → List α
  | [] => [x]
  | y :: rest => if before y x then y :: place before x rest else x :: y :: rest

/-- The heap that keeps its elements in order. -/
def ordered (before : α → α → Bool) : Heap α where
  Store := List α
  empty := []
  push s x := place before x s
  size := List.length
  pop?
    | [] => none
    | x :: rest => some (x, rest)

end Heap

/-! ## Executed instructions -/

/-- An instruction and how often it was executed. -/
structure Hot where
  index : Nat
  count : Nat
  text : Bytes
deriving DecidableEq, Repr

/-- The order of a profile: by count, the greater first, then by index. -/
def Hot.before (a b : Hot) : Bool := if a.count != b.count then b.count < a.count else a.index < b.index

namespace Machine

/-- The executed instructions in program order. -/
def executedInstructions (m : Machine) : List Hot :=
  (m.program.instructions.toList.zipIdx.map fun p =>
    ⟨p.2, (m.state.counts[p.2]?).getD 0, p.1.text⟩).filter fun h : Hot => h.count != 0

/-- The most often executed instructions, in the order in which a heap gives them back. -/
def profileBy (m : Machine) (h : Heap Hot) (n : Int) : List Hot :=
  let s := h.fill m.executedInstructions
  h.drain (if n ≤ 0 || h.size s < n then h.size s else n.toNat) s

/-- The most often executed instructions. -/
def profile (m : Machine) (n : Int) : List Hot := m.profileBy (.ordered Hot.before) n

end Machine

end RegisterMachine
