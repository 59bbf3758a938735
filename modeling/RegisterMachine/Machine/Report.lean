import RegisterMachine.Machine.Profile

/-!
# Reports

Listings and summaries as lines of text with tabs.

* `listing`: a program with its labels.
* `statsText`, `profileText`, `coverageText`: parts of a summary.
* `Machine.report`: the parts that a `Report` asks for.
-/

namespace RegisterMachine

/-- Fields separated by tabs, after `indent` tabs. -/
def tabLine (indent : Nat) (fields : List Bytes) : Bytes :=
  List.replicate indent (byte '\t') ++ join [byte '\t'] fields ++ [byte '\n']

/-- The labels of an offset, each on a line of its own. -/
def labelLines (p : Program) (offset : Nat) : Bytes :=
  (p.labelsAt offset).flatMap fun name => concat [name, ":\n"]

/-- The lines of an instruction: the labels of its offset, then its index, tag and text.  Without code there is no
tag. -/
def instructionLines (p : Program) (offset : Nat) (ins : Instruction) : Except Nat Bytes :=
  match ins.code with
  | none => .error offset
  | some code => .ok (labelLines p offset ++ tabLine 1 [decimal ins.index, code.tag, ins.text])

/-- The program, instruction by instruction, with the labels where they are bound.  An instruction without code is
an error. -/
def listing (p : Program) : Except Nat Bytes := do
  let lines ← p.instructions.toList.zipIdx.mapM fun e => instructionLines p e.2 e.1
  return lines.flatten ++ labelLines p p.size

/-- The text of a listing error. -/
def listingErrorText (index : Nat) : Bytes := concat ["instruction ", decimal index, " is not assembled"]

/-- The execution counters. -/
def statsText (indent : Nat) (s : Stats) : Bytes :=
  concat [
    tabLine indent ["executed", decimal s.executed],
    tabLine indent ["pushes", decimal s.pushes],
    tabLine indent ["max depth", decimal s.maxDepth],
    tabLine indent ["depth", decimal s.depth],
    tabLine indent ["covered", concat [decimal s.covered, "/", decimal s.total]]]

/-- A profile: count, index and text of each instruction. -/
def profileText (indent : Nat) (hot : List Hot) : Bytes :=
  hot.flatMap fun h => tabLine indent [decimal h.count, decimal h.index, h.text]

/-- How many instructions were executed, and those that never were. -/
def coverageText (m : Machine) : Bytes :=
  let total := m.program.size
  let missing := m.state.coverage.missing total
  let line (i : Nat) : Bytes := match m.program.instructions[i]? with
    | some ins => tabLine 1 [decimal i, ins.text]
    | none => []
  concat ["coverage: ", decimal (total - missing.length), "/", decimal total, "\n", missing.flatMap line]

/-- What to report about a machine.  A profile is asked for by any number but zero. -/
structure Report where
  registers : List Bytes := []
  stats : Bool := false
  coverage : Bool := false
  profile : Int := 0

/-- Register values, a line each, up to the first name without a register. -/
def registerLines (s : State) : List Bytes → Bytes × Option Bytes
  | [] => ([], none)
  | name :: rest =>
    match s.read? name with
    | none => ([], some name)
    | some v =>
      let (lines, missing) := registerLines s rest
      (concat [name, " = ", v.text, "\n"] ++ lines, missing)

/-- The report, and the first register that does not exist, at which it ends. -/
def Machine.report (m : Machine) (r : Report) : Bytes × Option Bytes :=
  match registerLines m.state r.registers with
  | (lines, some name) => (lines, some name)
  | (lines, none) =>
    let stats := if r.stats then utf8 "stats:\n" ++ statsText 1 m.stats else []
    let coverage := if r.coverage then coverageText m else []
    let profile := if r.profile != 0 then utf8 "profile:\n" ++ profileText 1 (m.profile r.profile) else []
    (concat [lines, stats, coverage, profile], none)

end RegisterMachine
