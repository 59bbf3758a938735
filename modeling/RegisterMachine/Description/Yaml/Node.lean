import RegisterMachine.Description.Yaml.Token

/-!
# YAML nodes

* `Node`: scalars, lists and maps, and references to nodes that have a name.
* `Node.ofTokens?`: the root of the first document among tokens.

Tokens are taken one after the other, and a document is wrong when a token is needed and none is left.  Collections
nest, so the functions that read them carry a bound on the number of steps, which the number of tokens supplies.
-/

namespace RegisterMachine.Yaml

/-- A node of a document.  A scalar has the tag it is given, and is plain or not.  An alias has the node it refers
to, unless it stands inside of that node. -/
inductive Node where
  | scalar (tag : Option Bytes) (plain : Bool) (text : Bytes)
  | list (items : List Node)
  | map (entries : List (Node × Node))
  | alias (name : Bytes) (target : Option Node)

/-- A node where nothing is written. -/
def Node.empty : Node := .scalar none true []

/-- The tokens that are left, the named nodes, and the handles of tags with what they mean.  A name has no node yet
while its node is being read. -/
structure Reading where
  tokens : List Token
  names : List (Bytes × Option Node) := []
  handles : List (Bytes × Bytes) := []

/-- What reads tokens. -/
abbrev Reader := StateT Reading Option

namespace Reader

/-- The next token, which is left. -/
def peek : Reader Token := do (← get).tokens.head?

/-- Takes the next token away. -/
def advance : Reader Unit := modify fun r => { r with tokens := r.tokens.drop 1 }

/-- The next token is this one; then it is taken away. -/
def accept (t : Token) : Reader Bool := do
  if (← peek) == t then
    advance
    return true
  else return false

/-- The next token is one of these; it is left. -/
def sees (ts : List Token) : Reader Bool := return ts.contains (← peek)

/-- Gives a node a name. -/
def name (anchor : Option Bytes) (n : Option Node) : Reader Unit :=
  match anchor with
  | none => return ()
  | some a => modify fun r => { r with names := (a, n) :: r.names.filter (·.1 != a) }

/-- Gives a node the name that was kept for it, unless another node took the name in the meantime. -/
def settle (anchor : Option Bytes) (n : Node) : Reader Node := do
  match anchor with
  | none => return n
  | some a =>
    match (← get).names.lookup a with
    | some none =>
      name anchor (some n)
      return n
    | _ => return n

/-! ## Properties of nodes -/

/-- What a tag with a handle is in full. -/
def fullTag? (handles : List (Bytes × Bytes)) (handle suffix : Bytes) : Option Bytes :=
  if handle.isEmpty then some suffix else (handles.lookup handle).map (· ++ suffix)

/-- An anchor, if one comes next. -/
def anchor? : Reader (Option Bytes) := do
  match ← peek with
  | .anchor a =>
    advance
    return some a
  | _ => return none

/-- A tag, if one comes next. -/
def tag? : Reader (Option Bytes) := do
  match ← peek with
  | .tag handle suffix =>
    advance
    return some (← fullTag? (← get).handles handle suffix)
  | _ => return none

/-- An anchor and a tag in either order, both optional. -/
def properties : Reader (Option Bytes × Option Bytes) := do
  match ← anchor? with
  | some a => return (some a, ← tag?)
  | none =>
    let tag ← tag?
    return (← if tag.isSome then anchor? else pure none, tag)

/-- A tag that says nothing counts for none. -/
def given (tag : Option Bytes) : Option Bytes := tag.filter (· != utf8 "!")

/-! ## Nodes -/

mutual

/-- A node.  Block collections start only where `block` says so, and an item of a sequence that is not indented
only where `items` says so. -/
def node (block items : Bool) : Nat → Reader Node
  | 0 => failure
  | fuel + 1 => do
    match ← peek with
    | .alias a =>
      advance
      match (← get).names.lookup a with
      | some target => return .alias a target
      | none => failure
    | _ =>
      let (anchor, tag) ← properties
      match ← peek with
      | .scalar plain text =>
        advance
        let n := .scalar (given tag) plain text
        name anchor (some n)
        return n
      | .flowSequence =>
        advance
        name anchor none
        settle anchor (.list (← flowItems true fuel))
      | .flowMapping =>
        advance
        name anchor none
        settle anchor (.map (← flowEntries true fuel))
      | t =>
        if items && t == .blockEntry then
          name anchor none
          settle anchor (.list (← bareItems fuel))
        else if block && t == .blockSequence then
          advance
          name anchor none
          settle anchor (.list (← blockItems fuel))
        else if block && t == .blockMapping then
          advance
          name anchor none
          settle anchor (.map (← blockEntries fuel))
        else if anchor.isSome || tag.isSome then
          let n := .scalar (given tag) true []
          name anchor (some n)
          return n
        else failure

/-- A node, or an empty one before these tokens. -/
def nodeUnless (block items : Bool) (ends : List Token) : Nat → Reader Node
  | 0 => failure
  | fuel + 1 => do if ← sees ends then return .empty else node block items fuel

/-- The items of a block sequence and its end. -/
def blockItems : Nat → Reader (List Node)
  | 0 => failure
  | fuel + 1 => do
    if ← accept .blockEntry then
      let n ← nodeUnless true false [.blockEntry, .blockEnd] fuel
      return n :: (← blockItems fuel)
    else if ← accept .blockEnd then return []
    else failure

/-- The items of a sequence that is not indented. -/
def bareItems : Nat → Reader (List Node)
  | 0 => failure
  | fuel + 1 => do
    if ← accept .blockEntry then
      let n ← nodeUnless true false [.blockEntry, .key, .value, .blockEnd] fuel
      return n :: (← bareItems fuel)
    else return []

/-- The entries of a block mapping and its end. -/
def blockEntries : Nat → Reader (List (Node × Node))
  | 0 => failure
  | fuel + 1 => do
    if ← accept .key then
      let k ← nodeUnless true true [.key, .value, .blockEnd] fuel
      let v ← if ← accept .value then nodeUnless true true [.key, .value, .blockEnd] fuel else pure .empty
      return (k, v) :: (← blockEntries fuel)
    else if ← accept .blockEnd then return []
    else failure

/-- The items of a sequence in brackets and its end. -/
def flowItems (first : Bool) : Nat → Reader (List Node)
  | 0 => failure
  | fuel + 1 => do
    if ← accept .flowSequenceEnd then return []
    else
      if !first && !(← accept .flowEntry) then failure
      if ← accept .flowSequenceEnd then return []
      else if ← accept .key then
        let pair ← flowPair fuel
        return .map [pair] :: (← flowItems false fuel)
      else
        let n ← node false false fuel
        return n :: (← flowItems false fuel)

/-- A single entry among the items of a sequence in brackets, after the token of its key.  A token is lost where
the key is missing. -/
def flowPair : Nat → Reader (Node × Node)
  | 0 => failure
  | fuel + 1 => do
    let missing ← sees [.value, .flowEntry, .flowSequenceEnd]
    if missing then advance
    let k ← if missing then pure .empty else node false false fuel
    let v ← if ← accept .value then nodeUnless false false [.flowEntry, .flowSequenceEnd] fuel else pure .empty
    let _ ← peek
    return (k, v)

/-- The entries of a mapping in braces and its end. -/
def flowEntries (first : Bool) : Nat → Reader (List (Node × Node))
  | 0 => failure
  | fuel + 1 => do
    if ← accept .flowMappingEnd then return []
    else
      if !first && !(← accept .flowEntry) then failure
      if ← accept .flowMappingEnd then return []
      else if ← accept .key then
        let k ← nodeUnless false false [.value, .flowEntry, .flowMappingEnd] fuel
        let v ← if ← accept .value then nodeUnless false false [.flowEntry, .flowMappingEnd] fuel else pure .empty
        return (k, v) :: (← flowEntries false fuel)
      else
        let k ← node false false fuel
        return (k, .empty) :: (← flowEntries false fuel)

end

/-! ## Documents -/

/-- The handles that every document has. -/
def usualHandles : List (Bytes × Bytes) := [("!", "!"), ("!!", "tag:yaml.org,2002:")]

/-- The directives before a document.  There is only one version, and a handle cannot be given twice. -/
def directives (versioned : Bool) : Nat → Reader Unit
  | 0 => failure
  | fuel + 1 => do
    match ← peek with
    | .version major minor =>
      if versioned || major != 1 || minor != 1 then failure
      advance
      directives true fuel
    | .handle a meaning =>
      if ((← get).handles.lookup a).isSome then failure
      advance
      modify fun r => { r with handles := (a, meaning) :: r.handles }
      directives versioned fuel
    | _ => modify fun r => { r with handles := r.handles ++ usualHandles }

/-- The root of a document that has a start mark. -/
def markedRoot (fuel : Nat) : Reader Node := do
  directives false fuel
  if !(← accept .documentStart) then failure
  match ← peek with
  | .version .. | .handle .. | .documentStart | .documentEnd | .streamEnd => return .empty
  | _ => node true false fuel

/-- The root of the first document, if there is any.  What comes after a document is not looked at, but its next
token must be there. -/
def root (fuel : Nat) : Reader (Option Node) := do
  match ← peek with
  | .streamEnd => return none
  | .version .. | .handle .. | .documentStart =>
    let n ← markedRoot fuel
    let _ ← peek
    return some n
  | _ =>
    directives false fuel
    let n ← node true false fuel
    let _ ← peek
    return some n

end Reader

/-- The root of the first document among tokens, if there is any. -/
def Node.ofTokens? (tokens : List Token) : Option (Option Node) :=
  ((Reader.root (2 * tokens.length + 2)).run { tokens }).map (·.1)

end RegisterMachine.Yaml
