import RegisterMachine.Text.Bytes

/-!
# Views of a program

A view is the part of an assembled program from one instruction to the end: what `pc` holds and what labels
denote.  It knows its program by the program's layout.

* `Layout.labelsAt`: the labels of an offset, in name order.
* `View.isEmpty`, `View.length`, `View.tail`, `View.text`.
* `View.ofProgram`: the view belongs to the program with a given layout.
-/

namespace RegisterMachine

/-- What views share of their program: a serial number that tells programs apart, the number of instructions
and the offsets of the labels. -/
structure Layout where
  serial : Nat
  size : Nat
  labels : List (Bytes × Nat)
deriving DecidableEq, Repr

/-- The labels bound to an offset, in name order. -/
def Layout.labelsAt (l : Layout) (offset : Nat) : List Bytes :=
  sortBytes ((l.labels.filter (·.2 == offset)).map (·.1))

/-- The number of instructions of a program, none for no program. -/
def Layout.total : Option Layout → Nat
  | none => 0
  | some l => l.size

/-- The instructions of a program from `offset` on.  A view of no program is empty, and none reaches past the end
of its program. -/
structure View where
  layout : Option Layout := none
  offset : Nat := 0
  inside : offset ≤ Layout.total layout := by exact Nat.zero_le _
deriving DecidableEq, Repr

namespace View

/-- Nothing is left to execute. -/
def isEmpty (v : View) : Bool := Layout.total v.layout ≤ v.offset

/-- The number of instructions left. -/
def length (v : View) : Nat := Layout.total v.layout - v.offset

/-- The view without its first instruction; an empty view stays. -/
def tail (v : View) : View :=
  if h : Layout.total v.layout ≤ v.offset then v
  else { v with offset := v.offset + 1, inside := Nat.lt_of_not_le h }

theorem tail_of_lt {v : View} (h : v.offset < Layout.total v.layout) : v.tail = ⟨v.layout, v.offset + 1, h⟩ :=
  dif_neg (Nat.not_le_of_lt h)

/-- The two views belong to one program, or both to none. -/
def sameProgram (v w : View) : Bool := v.layout == w.layout

/-- The view belongs to the program with this layout. -/
def ofProgram (v : View) (l : Layout) : Bool := v.layout == some l

/-- The same program and the same offset. -/
def same (v w : View) : Bool := v.sameProgram w && v.offset == w.offset

/-- The printed form: the first label of the offset, if it has one, and the offset. -/
def text (v : View) : Bytes :=
  match v.layout with
  | none => "<seq>"
  | some l =>
    match l.labelsAt v.offset with
    | name :: _ => concat ["<seq ", name, " @", decimal v.offset, ">"]
    | [] => concat ["<seq @", decimal v.offset, ">"]

end View

end RegisterMachine
