import RegisterMachine.Value.Basic

/-!
# Printed values

* `Value.text`: the form in which the machine prints values; lists of both representations look alike, and a chain
  that ends in something else shows it after a point.
* `Value.plain`: the form in which messages show values; strings are bare and brackets tell the representations
  apart.
-/

namespace RegisterMachine

namespace Value

/-- Entries as messages show them. -/
def entriesText (entries : List (Bytes × Bytes)) : Bytes :=
  concat ["map[", join " " (entries.map fun e => concat [e.1, ":", e.2]), "]"]

/-- The rank of a value's kind among keys of several kinds. -/
def keyRank : Value → Nat
  | nil | emptyPair => 0
  | bool _ => 1
  | float _ => 2
  | int _ | raw _ => 3
  | string _ | symbol _ => 4
  | natural _ => 5
  | _ => 6

/-- The order of keys: by kind, and within a kind by value.  What is no number is below all numbers. -/
def keyLe : Value → Value → Bool
  | bool a, bool b => !a || b
  | float a, float b => a.isNaN || a ≤ b
  | raw a, raw b => a ≤ b
  | natural a, natural b => a ≤ b
  | string a, string b => bytesLe a b
  | instant a, instant b => bytesLe a.text b.text
  | a, b => a.keyRank ≤ b.keyRank

mutual

/-- The value as messages show it. -/
def plain : Value → Bytes
  | nil | emptyPair => "<nil>"
  | bool b => if b then "true" else "false"
  | int n | raw n => decimalInt n.toInt
  | natural n => decimal n.toNat
  | float x => floatText x
  | string s | symbol s => s
  | instant t => t.text
  | view v => v.text
  | list items => concat ["[", join " " (plains items), "]"]
  | pair _ a d => concat ["&\x7b", a.plain, " ", d.plain, "\x7d"]
  | table entries => entriesText ((plainEntries entries).mergeSort fun a b => bytesLe a.1 b.1)
  | tables items => concat ["[", join " " (plainTables items), "]"]
  | mapping entries =>
    let shown := (entries.map (·.1)).zip (plainPairs entries)
    entriesText ((shown.mergeSort fun a b => a.1.keyLe b.1).map (·.2))
termination_by structural v => v

/-- The items of a list as messages show them. -/
def plains : List Value → List Bytes
  | [] => []
  | v :: rest => v.plain :: plains rest
termination_by structural vs => vs

/-- The entries of a table as messages show them. -/
def plainEntries : List (Bytes × Value) → List (Bytes × Bytes)
  | [] => []
  | e :: rest => plainEntry e :: plainEntries rest
termination_by structural es => es

/-- One entry of a table. -/
def plainEntry : Bytes × Value → Bytes × Bytes
  | (key, v) => (key, v.plain)
termination_by structural e => e

/-- Several tables as messages show them. -/
def plainTables : List (List (Bytes × Value)) → List Bytes
  | [] => []
  | es :: rest => entriesText ((plainEntries es).mergeSort fun a b => bytesLe a.1 b.1) :: plainTables rest
termination_by structural ts => ts

/-- The entries of a mapping as messages show them. -/
def plainPairs : List (Value × Value) → List (Bytes × Bytes)
  | [] => []
  | e :: rest => plainPair e :: plainPairs rest
termination_by structural es => es

/-- One entry of a mapping. -/
def plainPair : Value × Value → Bytes × Bytes
  | (key, v) => (key.plain, v.plain)
termination_by structural e => e

end

/-- The printed form of a value that is not a list. -/
def leafText : Value → Bytes
  | nil | emptyPair => "()"
  | float x => Form.floatForm x
  | string s => Form.stringText s
  | v => v.plain

mutual

/-- The printed form. -/
def text : Value → Bytes
  | list items => concat ["(", join " " (texts items), ")"]
  | pair _ a d => concat ["(", a.text, d.tailText]
  | v => v.leafText
termination_by structural v => v

/-- The printed rest of a chain of pairs, to its closing parenthesis. -/
def tailText : Value → Bytes
  | pair _ a d => concat [" ", a.text, d.tailText]
  | nil | emptyPair => ")"
  | list items => concat [(texts items).flatMap (0x20 :: ·), ")"]
  | v => concat [" . ", v.leafText, ")"]
termination_by structural v => v

/-- The printed forms of the items of a list. -/
def texts : List Value → List Bytes
  | [] => []
  | v :: rest => v.text :: texts rest
termination_by structural vs => vs

end

end Value

end RegisterMachine
