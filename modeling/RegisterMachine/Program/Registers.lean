import RegisterMachine.Program.Basic
import RegisterMachine.Machine.State

/-!
# Registers of a controller

`inferRegisters x`: the registers that a controller mentions, each once, in the order of their first mention.
`pc` and `flag` always exist and are left out.
-/

namespace RegisterMachine

/-- A name that is mentioned, unless it is known already. -/
def mention (names : List Bytes) : Form → List Bytes
  | .ident _ name =>
    if name == pcName || name == flagName || names.contains name then names else names ++ [name]
  | _ => names

mutual

/-- The registers in operands `(reg name)` anywhere in a form, constants left out. -/
def mentioned (names : List Bytes) : Form → List Bytes
  | .list _ items =>
    match Form.tagged? (utf8 "reg") items with
    | some r => mention names r
    | none => if (Form.tagged? (utf8 "const") items).isSome then names else mentionedIn names items
  | _ => names

/-- The registers in operands anywhere in some forms. -/
def mentionedIn (names : List Bytes) : List Form → List Bytes
  | [] => names
  | x :: rest => mentionedIn (mentioned names x) rest

end

/-- The instructions that have a register as their first argument. -/
def hasTarget (tag : Bytes) : Bool := tag == utf8 "assign" || tag == utf8 "save" || tag == utf8 "restore"

/-- The registers that one instruction mentions, its target first. -/
def mentionedByElement (names : List Bytes) : Form → List Bytes
  | .list span (head :: arg :: rest) =>
    let names := if head.name?.any hasTarget then mention names arg else names
    mentioned names (.list span (head :: arg :: rest))
  | _ => names

/-- The registers that a controller mentions. -/
def inferRegisters (controller : Form) : List Bytes :=
  (controller.items?.getD []).foldl mentionedByElement []

end RegisterMachine
