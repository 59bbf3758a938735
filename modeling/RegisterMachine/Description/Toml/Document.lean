import RegisterMachine.Description.Toml.Scalar

/-!
# TOML documents

`Toml.document? s`: the table that a document denotes, or nothing if the document is wrong.  Integers become
machine integers.

* `Marks`: what is known about the keys of a document.
* `Tables`: the tables of a document while it is read.
* `Tables.put?`: gives a key its value; which keys can be given twice is decided here.
* `Tables.open?`: makes a table, or one more table of several, under a key.
* `value?`, `lines?`: values and lines, with the tables that they leave behind.

Reading goes from the first byte to the last.  Values nest, so the functions that read them carry a bound on the
depth of nesting, which the length of the document supplies.
-/

namespace RegisterMachine.Toml

/-- The entries of a table. -/
abbrev Entries := List (Bytes × Value)

/-- The way to a value from the outermost table. -/
abbrev Path := List Bytes

/-- The entries with one of them replaced, or added at the end. -/
def putEntry (key : Bytes) (v : Value) : Entries → Entries
  | [] => [(key, v)]
  | e :: rest => if e.1 == key then (key, v) :: rest else e :: putEntry key v rest

/-! ## Marks on paths -/

/-- What is known about a path and the paths below it.  A path is implied if it was only needed to get to another
one, and an array if its last value was written in brackets. -/
inductive Marks where
  | node (implied array : Bool) (below : List (Bytes × Marks))

namespace Marks

/-- Nothing is known. -/
def none : Marks := .node false false []

/-- The marks below a key. -/
def get (key : Bytes) : Marks → Marks
  | .node _ _ below => (below.lookup key).getD .none

/-- The marks with those below a key replaced. -/
def set : Marks → Bytes → Marks → Marks
  | .node implied array below, key, m => .node implied array ((key, m) :: below.filter (·.1 != key))

/-- The marks of a path. -/
def find (path : Path) (m : Marks) : Marks := path.foldl (fun m key => m.get key) m

/-- The marks after a change to those of a path. -/
def change (f : Marks → Marks) : Path → Marks → Marks
  | [], m => f m
  | key :: path, m => m.set key (change f path (m.get key))

/-- The path is only implied. -/
def isImplied : Marks → Bool
  | .node implied _ _ => implied

/-- The last value of the path was an array. -/
def isArray : Marks → Bool
  | .node _ array _ => array

/-- The path is only implied from now on, or is not. -/
def withImplied (implied : Bool) : Marks → Marks
  | .node _ array below => .node implied array below

/-- The last value of the path was an array, or was not. -/
def withArray (array : Bool) : Marks → Marks
  | .node implied _ below => .node implied array below

end Marks

/-! ## Tables under construction -/

/-- The tables of a document while it is read, and the marks on their paths. -/
structure Tables where
  root : Entries := []
  marks : Marks := .none

/-- The entries that a path leads to; several tables under one key stand for the last of them. -/
def entriesAt? : Path → Entries → Option Entries
  | [], entries => some entries
  | key :: path, entries =>
    match entries.lookup key with
    | some (.table inner) => entriesAt? path inner
    | some (.tables items) => items.getLast?.bind (entriesAt? path)
    | _ => none

/-- The entries after a change to those that a path leads to. -/
def changeAt? (change : Entries → Option Entries) : Path → Entries → Option Entries
  | [], entries => change entries
  | key :: path, entries =>
    match entries.lookup key with
    | some (.table inner) => do return putEntry key (.table (← changeAt? change path inner)) entries
    | some (.tables items) => do
      return putEntry key (.tables (items.dropLast ++ [← changeAt? change path (← items.getLast?)])) entries
    | _ => none

/-- The entries and marks after a path was made to lead to a table.  Tables that were missing are implied. -/
def reachAt? : Path → Entries → Marks → Option (Entries × Marks)
  | [], entries, marks => some (entries, marks)
  | key :: path, entries, marks =>
    let below := marks.get key
    match entries.lookup key with
    | none => do
      let (inner, below) ← reachAt? path [] (below.withImplied true)
      return (putEntry key (.table inner) entries, marks.set key below)
    | some (.table inner) => do
      let (inner, below) ← reachAt? path inner below
      return (putEntry key (.table inner) entries, marks.set key below)
    | some (.tables items) => do
      let (last, below) ← reachAt? path (← items.getLast?) below
      return (putEntry key (.tables (items.dropLast ++ [last])) entries, marks.set key below)
    | some _ => none

namespace Tables

/-- A path that is only implied from now on. -/
def imply (t : Tables) (path : Path) : Tables := { t with marks := t.marks.change (·.withImplied true) path }

/-- A path that is given by itself from now on. -/
def confirm (t : Tables) (path : Path) : Tables := { t with marks := t.marks.change (·.withImplied false) path }

/-- The entries that a path leads to, changed. -/
def change? (t : Tables) (path : Path) (f : Entries → Option Entries) : Option Tables :=
  (changeAt? f path t.root).map fun root => { t with root }

/-- Gives a key in the table at `here` its value.  A key can be given again if its value was an array, which is
then replaced, and once if it was implied, which then keeps its old value. -/
def put? (t : Tables) (here : Path) (key : Bytes) (v : Value) : Option Tables := do
  let entries ← entriesAt? here t.root
  let path := here ++ [key]
  let marks := t.marks.find path
  if (entries.lookup key).isNone then t.change? here fun es => some (putEntry key v es)
  else if marks.isArray then (t.confirm path).change? here fun es => some (putEntry key v es)
  else if marks.isImplied then return t.confirm path
  else none

/-- Makes a table at a path, or one more of the tables there. -/
def open? (t : Tables) (path : Path) (several : Bool) : Option Tables := do
  let key ← path.getLast?
  let (root, marks) ← reachAt? path.dropLast t.root t.marks
  let t : Tables := ⟨root, marks⟩
  if !several then t.put? path.dropLast key (.table [])
  else t.change? path.dropLast fun entries =>
    match entries.lookup key with
    | none => some (putEntry key (.tables [[]]) entries)
    | some (.tables items) => some (putEntry key (.tables (items ++ [[]])) entries)
    | some _ => none

/-- Goes down the first parts of a key of several parts.  They are implied, even if there is something already. -/
def descend? (t : Tables) (here : Path) (parts : List Bytes) : Option Tables :=
  (List.range parts.length).foldlM (fun t n =>
    let path := here ++ parts.take (n + 1)
    (t.imply path).open? path false) t

/-- Whose value it is that is an array or not.  An empty key counts for the table it is in, unless that is the
outermost one. -/
def subject (here : Path) (key : Bytes) : Path := if key.isEmpty && !here.isEmpty then here else here ++ [key]

/-- Notes whether the last value of a path was an array. -/
def mark (t : Tables) (path : Path) (array : Bool) : Tables :=
  { t with marks := t.marks.change (·.withArray array) path }

end Tables

/-- A value written in brackets. -/
def isArray : Value → Bool
  | .list _ => true
  | _ => false

/-- Puts a value into entries of its own, below the first parts of its key, which are made if they are missing. -/
def insert? (v : Value) (key : Bytes) : List Bytes → Entries → Option Entries
  | [], entries => some (putEntry key v entries)
  | part :: parts, entries =>
    match entries.lookup part with
    | none => do return putEntry part (.table (← insert? v key parts [])) entries
    | some (.table inner) => do return putEntry part (.table (← insert? v key parts inner)) entries
    | some _ => none

/-! ## Values -/

mutual

/-- A value for `key` in the table at `here`, the tables after it and the text after it. -/
def value? :
    Nat → (several : Bool) → (here : Path) → (key : Bytes) → Tables → Bytes → Option (Value × Tables × Bytes)
  | 0, _, _, _, _, _ => none
  | fuel + 1, several, here, key, t, s =>
    match s with
    | [] => none
    | c :: rest =>
      if c == 0x22 || c == 0x27 then (string? s).map fun r => (.string r.1, t, r.2)
      else if c == 0x5B then
        (array? fuel here key (t.mark (Tables.subject here key) true) rest).map fun r => (.list r.1, r.2)
      else if c == 0x7B then
        let inside := here ++ [key]
        match (t.imply inside).open? inside several with
        | none => none
        | some t =>
          match skipBlanks rest with
          | [] => none
          | d :: after =>
            if d == 0x7D then some (.table [], t, after)
            else (inlineTable? fuel inside [] t (d :: after)).map fun r => (.table r.1, r.2)
      else
        let (w, after) := word s
        (wordValue? s.length w).map fun v => (v, t, after)

/-- The items of an array up to its closing bracket. -/
def array? : Nat → (here : Path) → (key : Bytes) → Tables → Bytes → Option (List Value × Tables × Bytes)
  | 0, _, _, _, _ => none
  | fuel + 1, here, key, t, s =>
    match skipLines s with
    | [] => none
    | c :: rest =>
      if c == 0x5D then some ([], t, rest)
      else match value? fuel true here key t (c :: rest) with
        | none => none
        | some (v, t, after) =>
          match skipLines after with
          | [] => none
          | d :: more =>
            if d == 0x5D then some ([v], t, more)
            else if d == byte ',' then (array? fuel here key t more).map fun r => (v :: r.1, r.2)
            else none

/-- The entries of a table in braces, at least one, up to the closing brace.  They go to the table at `here` and
are collected beside it. -/
def inlineTable? : Nat → (here : Path) → Entries → Tables → Bytes → Option (Entries × Tables × Bytes)
  | 0, _, _, _, _ => none
  | fuel + 1, here, own, t, s =>
    match entry? fuel here t s with
    | none => none
    | some (parts, key, v, t, after) =>
      match insert? v key parts own, skipBlanks after with
      | some own, c :: rest =>
        if c == 0x7D then some (own, t, rest)
        else if c == byte ',' then inlineTable? fuel here own t rest
        else none
      | _, _ => none

/-- A key, given as its first parts and the last one, with its value, which goes to the table at `here`. -/
def entry? : Nat → (here : Path) → Tables → Bytes → Option (List Bytes × Bytes × Value × Tables × Bytes)
  | 0, _, _, _ => none
  | fuel + 1, here, t, s =>
    match key? (s.length + 1) s with
    | some (name, c :: rest) =>
      let parts := name.dropLast
      let key := name.getLast?.getD []
      if c != byte '=' then none
      else match t.descend? here parts with
        | none => none
        | some t =>
          match value? fuel false (here ++ parts) key t (skipBlanks rest) with
          | none => none
          | some (v, t, after) =>
            (t.put? (here ++ parts) key v).map fun t =>
              (parts, key, v, t.mark (Tables.subject (here ++ parts) key) (isArray v), after)
    | _ => none

end

/-! ## Documents -/

/-- A table header after its opening brackets, of which there are `brackets`. -/
def header? (brackets : Nat) (s : Bytes) : Option (List Bytes × Bytes) := do
  let (key, rest) ← key? (s.length + 1) s
  if rest.take brackets == List.replicate brackets 0x5D then return (key, rest.drop brackets) else none

/-- The lines of a document, at most `fuel` of them.  `here` is the path of the table that keys go to. -/
def lines? : Nat → (here : Path) → Tables → Bytes → Option Tables
  | 0, _, _, _ => none
  | fuel + 1, here, t, s =>
    match skipLines s with
    | [] => some t
    | c :: rest =>
      if c == 0x5B then
        let several := rest.head? == some 0x5B
        do
          let (key, after) ← if several then header? 2 (rest.drop 1) else header? 1 rest
          let t ← t.open? key several
          lines? fuel key (t.mark key false) (← restOfLine? after)
      else do
        let (_, _, _, t, after) ← entry? (2 * fuel + 2) here t (c :: rest)
        lines? fuel here t (← restOfLine? after)

/-- A text without the byte order mark it may start with, of whichever encoding. -/
def withoutMark (s : Bytes) : Bytes :=
  if s.take 2 == [0xFF, 0xFE] || s.take 2 == [0xFE, 0xFF] then s.drop 2
  else if s.take 3 == [0xEF, 0xBB, 0xBF] then s.drop 3
  else s

/-- The table that a document denotes. -/
def document? (s : Bytes) : Option Entries :=
  let s := withoutMark s
  if !validUtf8 s || !isText s then none else (lines? (s.length + 2) [] {} s).map Tables.root

end RegisterMachine.Toml
