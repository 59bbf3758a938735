import RegisterMachine.Description.Basic
import RegisterMachine.Description.Yaml.Resolution

/-!
# Descriptions in YAML documents

* `Decoding`: reading values out of nodes, with a limit on how much of the work aliases cause.
* `Decoding.value`: the value of a node.
* `description?`: the description in a document.

An alias stands for a node that is complete before it, so that all steps together are no deeper than the number of
nodes, which bounds them.
-/

namespace RegisterMachine.Yaml

/-- How many nodes were visited so far, and how many of them below aliases. -/
structure Tally where
  visited : Nat := 0
  aliased : Nat := 0

/-- Too much of the work is caused by aliases: more than 99 hundredths, and for large documents down to
one tenth. -/
def Tally.isExcessive (t : Tally) : Bool :=
  let low := 400000
  let span := 3600000
  let hundredths := 99 * span - 89 * (min (t.visited - low) span)
  100 < t.aliased && 1000 < t.visited && t.visited * hundredths < t.aliased * 100 * span

/-- Reading that can fail and counts what it visits. -/
abbrev Decoding := StateT Tally Option

/-! ## Keys -/

/-- Nodes that cannot both be keys of one map: they are of one form and have the same text or name. -/
def Node.sameKey : Node → Node → Bool
  | .scalar _ _ a, .scalar _ _ b => a == b
  | .alias a _, .alias b _ => a == b
  | .list _, .list _ => true
  | .map _, .map _ => true
  | _, _ => false

/-- No two keys are the same. -/
def distinctKeys : List (Node × Node) → Bool
  | [] => true
  | e :: rest => rest.all (fun r => !e.1.sameKey r.1) && distinctKeys rest

/-- The entries under this key are those of other maps. -/
def Node.isMerge : Node → Bool
  | .scalar tag plain text => text == mergeWord && scalarKind tag plain text == .merge
  | _ => false

/-- A key that is a text, or stands for the entries of other maps. -/
def Node.isTextKey : Node → Bool
  | .scalar tag plain text | .alias _ (some (.scalar tag plain text)) =>
    scalarKind tag plain text == .string || scalarKind tag plain text == .merge
  | _ => false

/-- The node is a map, or an alias of one. -/
def Node.isMap : Node → Bool
  | .map _ | .alias _ (some (.map _)) => true
  | _ => false

/-- Entries while a map is read.  `taken` holds the keys that other maps cannot give any more, as soon as there are
other maps. -/
structure Filling where
  entries : List (Value × Value) := []
  taken : Option (List Value) := none

namespace Filling

/-- A key cannot be given any more. -/
def isTaken (f : Filling) (key : Value) : Bool := f.taken.any fun keys => keys.any key.equal

/-- A key from now on cannot be given any more, if that counts. -/
def take (f : Filling) (key : Value) : Filling := { f with taken := f.taken.map (key :: ·) }

/-- Sets the value of a key. -/
def put (f : Filling) (key v : Value) : Filling :=
  let rec set : List (Value × Value) → List (Value × Value)
    | [] => [(key, v)]
    | e :: rest => if key.equal e.1 then (key, v) :: rest else e :: set rest
  { f with entries := set f.entries }

end Filling

/-- The entries with texts for keys. -/
def textEntries (entries : List (Value × Value)) : List (Bytes × Value) :=
  entries.filterMap fun e =>
    match e.1 with
    | .string s => some (s, e.2)
    | _ => none

namespace Decoding

/-- One more visit, below some number of aliases; gives its number. -/
def visit (depth : Nat) : Decoding Nat := do
  let t ← get
  let t : Tally := ⟨t.visited + 1, if depth == 0 then t.aliased else t.aliased + 1⟩
  if t.isExcessive then failure
  set t
  return t.visited

/-- The text of a scalar, whatever else it may stand for; null has none. -/
def text (depth : Nat) : Node → Decoding (Option Bytes)
  | .scalar tag plain text => do
    match ← scalarValue? (← visit depth) tag plain text with
    | .nil => return none
    | .string s => return some s
    | _ => return some text
  | .alias _ (some (.scalar tag plain text)) => do
    let _ ← visit depth
    Decoding.text (depth + 1) (.scalar tag plain text)
  | _ => failure

/-- Values that cannot be keys. -/
def isCollection : Value → Bool
  | .list _ | .table _ | .mapping _ => true
  | _ => false

mutual

/-- The value of a node. -/
def value (depth : Nat) (n : Node) : Nat → Decoding Value
  | 0 => failure
  | fuel + 1 => do
    let place ← visit depth
    match n with
    | .scalar tag plain text => scalarValue? place tag plain text
    | .list items => return .list (← items.mapM fun n => value depth n fuel)
    | .map entries =>
      let texts := entries.all (·.1.isTextKey)
      let f ← fill texts depth entries {} fuel
      return if texts then .table (textEntries f.entries) else .mapping f.entries
    | .alias _ (some target) => value (depth + 1) target fuel
    | .alias _ none => failure
termination_by structural fuel => fuel

/-- The value of a key, or nothing for null where keys are texts. -/
def key (texts : Bool) (depth : Nat) (n : Node) : Nat → Decoding (Option Value)
  | 0 => failure
  | fuel + 1 => do
    if texts then return (← text depth n).map .string
    else
      let v ← value depth n fuel
      if isCollection v then failure
      return some v
termination_by structural fuel => fuel

/-- The entries of a map, added to others. -/
def fill (texts : Bool) (depth : Nat) (entries : List (Node × Node)) (f : Filling) : Nat → Decoding Filling
  | 0 => failure
  | fuel + 1 => do
    if !distinctKeys entries then failure
    let f ← entries.foldlM (fun f (k, v) => do
      if k.isMerge then return f
      match ← key texts depth k fuel with
      | none => return f
      | some x =>
        if f.isTaken x then return f
        return (f.take x).put x (← value depth v fuel)) f
    match entries.find? (·.1.isMerge) with
    | none => return f
    | some (_, source) => merge texts depth entries source f fuel
termination_by structural fuel => fuel

/-- The entries of other maps, for keys that are not given here.  The keys of this map are told from those by the
values they stand for. -/
def merge (texts : Bool) (depth : Nat) (entries : List (Node × Node)) (source : Node) (f : Filling) :
    Nat → Decoding Filling
  | 0 => failure
  | fuel + 1 => do
    let own ← match f.taken with
      | some keys => pure keys
      | none => entries.mapM fun e => value depth e.1 fuel
    let sources := match source with
      | .list items => items
      | n => [n]
    if !sources.all Node.isMap then failure
    let g ← sources.foldlM (fun f n => fillFrom texts depth n f fuel) { f with taken := some own }
    return { g with taken := f.taken.map fun _ => g.taken.getD [] }
termination_by structural fuel => fuel

/-- The entries of a map or of an alias of one, added to others. -/
def fillFrom (texts : Bool) (depth : Nat) (n : Node) (f : Filling) : Nat → Decoding Filling
  | 0 => failure
  | fuel + 1 => do
    let _ ← visit depth
    match n with
    | .map entries => fill texts depth entries f fuel
    | .alias _ (some target) => fillFrom texts (depth + 1) target f fuel
    | _ => failure
termination_by structural fuel => fuel

end

/-! ## Fields of a description -/

/-- The node that an alias stands for, and how many aliases it is below. -/
def followed (depth : Nat) : Node → Decoding (Nat × Node)
  | .alias _ (some n) => do
    let _ ← visit depth
    return (depth + 1, n)
  | .alias _ none => failure
  | n => return (depth, n)

/-- Stands for null. -/
def isNull (n : Node) : Bool :=
  match n with
  | .scalar tag plain text => scalarKind tag plain text == .null
  | _ => false

/-- A list of texts; nulls in it are left out, and null alone is the empty list. -/
def texts (depth : Nat) (n : Node) : Decoding (List Bytes) := do
  let (depth, n) ← followed depth n
  match n with
  | .list items =>
    let _ ← visit depth
    return (← items.mapM (text depth)).filterMap id
  | n => if isNull n && (← text depth n).isNone then return [] else failure

/-- The entries of a map with texts for keys; null has none. -/
def table (depth : Nat) (n : Node) (fuel : Nat) : Decoding (List (Bytes × Value)) := do
  let (depth, n) ← followed depth n
  match n with
  | .map entries =>
    let _ ← visit depth
    return textEntries (← fill true depth entries {} fuel).entries
  | n => if isNull n && (← text depth n).isNone then return [] else failure

/-- A description with one field set; null leaves a text as it is, and other names are not looked at. -/
def assign (d : Description) (name : Bytes) (depth : Nat) (n : Node) (fuel : Nat) : Decoding Description := do
  if name == utf8 "registers" then return { d with registers := ← texts depth n }
  else if name == utf8 "operations" then return { d with operations := ← texts depth n }
  else if name == utf8 "controller" then return { d with controller := (← text depth n).getD d.controller }
  else if name == utf8 "source" then return { d with source := (← text depth n).getD d.source }
  else if name == utf8 "init" then return { d with init := ← table depth n fuel }
  else if name == utf8 "print" then return { d with print := ← texts depth n }
  else return d

/-- The names of fields. -/
def fieldNames : List Bytes := ["registers", "operations", "controller", "source", "init", "print"]

/-- A description while it is read, with the names that other maps cannot give any more. -/
structure Draft where
  description : Description := {}
  taken : Option (List Value) := none

mutual

/-- The fields that a map gives, each of them once. -/
def fields (depth : Nat) (entries : List (Node × Node)) (f : Draft) : Nat → Decoding Draft
  | 0 => failure
  | fuel + 1 => do
    if !distinctKeys entries then failure
    let (f, _) ← entries.foldlM (fun (f, done) (k, v) => do
      if k.isMerge then return (f, done)
      match ← text depth k with
      | none => return (f, done)
      | some name =>
        if f.taken.any fun keys => keys.any (Value.string name).equal then return (f, done)
        let f := { f with taken := f.taken.map (.string name :: ·) }
        if fieldNames.contains name && done.contains name then failure
        return ({ f with description := ← assign f.description name depth v fuel }, name :: done))
      ((f, []) : Draft × List Bytes)
    match entries.find? (·.1.isMerge) with
    | none => return f
    | some (_, source) =>
      let own ← match f.taken with
        | some keys => pure keys
        | none => entries.mapM fun e => value depth e.1 fuel
      let sources := match source with
        | .list items => items
        | n => [n]
      if !sources.all Node.isMap then failure
      let g ← sources.foldlM (fun f n => fieldsFrom depth n f fuel) { f with taken := some own }
      return { g with taken := f.taken.map fun _ => g.taken.getD [] }
termination_by structural fuel => fuel

/-- The fields that a map or an alias of one gives. -/
def fieldsFrom (depth : Nat) (n : Node) (f : Draft) : Nat → Decoding Draft
  | 0 => failure
  | fuel + 1 => do
    let _ ← visit depth
    match n with
    | .map entries => fields depth entries f fuel
    | .alias _ (some target) => fieldsFrom (depth + 1) target f fuel
    | _ => failure
termination_by structural fuel => fuel

end

/-- The description that a document's root gives; null gives the empty one. -/
def description (root : Node) (fuel : Nat) : Decoding Description := do
  let _ ← visit 0
  match root with
  | .scalar .. => if isNull root && (← text 0 root).isNone then return {} else failure
  | n => return (← fieldsFrom 0 n {} fuel).description

end Decoding

/-- The description in a document. -/
def description? (s : Bytes) : Option Description := do
  let tokens := Token.ofText (← characters? s)
  match ← Node.ofTokens? tokens with
  | none => return {}
  | some root => ((Decoding.description root (4 * tokens.length + 8)).run {}).map (·.1)

end RegisterMachine.Yaml
