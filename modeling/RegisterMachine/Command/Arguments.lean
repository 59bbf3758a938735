import RegisterMachine.Number.Literal
import RegisterMachine.Text.Quoted

/-!
# Command line arguments

A command line is flags for the program, the name of a command, and flags and plain arguments for the command.

* `rootFlags`, `Command.flags`: the flags of the program and of each command.
* `Arguments.read`: the command with its flags and plain arguments, or what is wrong with them.
-/

namespace RegisterMachine

/-- What the program can be asked to do. -/
inductive Command where
  | run | list | parse | check
deriving DecidableEq

/-- The name of a command. -/
def Command.name : Command → Bytes
  | run => "run"
  | list => "list"
  | parse => "parse"
  | check => "check"

/-- The command of a name. -/
def Command.ofName? (name : Bytes) : Option Command :=
  [Command.run, .list, .parse, .check].find? fun c => c.name == name

/-- What the value of a flag is. -/
inductive FlagKind where
  | text | truth | number

/-- The flags of the program itself. -/
def rootFlags : List (Bytes × FlagKind) := [("v", .text), ("log", .text), ("help", .truth)]

/-- The flags of a command. -/
def Command.flags : Command → List (Bytes × FlagKind)
  | run => [("regs", .text), ("set", .text), ("print", .text), ("stats", .truth), ("coverage", .truth),
      ("profile", .number)]
  | list => [("regs", .text)]
  | parse | check => []

/-- The value of a flag. -/
inductive FlagValue where
  | text (s : Bytes)
  | truth (b : Bool)
  | number (n : Int64)

/-- What can be wrong with a flag. -/
inductive FlagProblem where
  | unknown
  | noValue
  | notTruth
  | notNumber (value : Bytes)
  | outOfRange (value : Bytes)

/-- The text of a flag problem. -/
def FlagProblem.message : FlagProblem → Bytes
  | unknown => "no such flag"
  | noValue => "flag value is required"
  | notTruth => "not a bool value"
  | notNumber value => concat ["strconv.ParseInt: parsing ", quoted value, ": invalid syntax"]
  | outOfRange value => concat ["strconv.ParseInt: parsing ", quoted value, ": value out of range"]

/-- What can be wrong with a command line. -/
inductive ArgumentError where
  | flag (argument : Bytes) (problem : FlagProblem)
  | unexpected (argument : Bytes)

/-- The text of an argument error. -/
def ArgumentError.message : ArgumentError → Bytes
  | flag argument problem => concat ["parse flag: ", argument, ": ", problem.message]
  | unexpected argument => utf8 "no args expected, got " ++ argument

/-! ## Flags -/

/-- The words for true and false, in any case; nothing at all is true. -/
def truthOf? (s : Bytes) : Option Bool :=
  let s := lower s
  if ["true", "t", "yes", "y", "1", ""].any fun w => utf8 w == s then some true
  else if ["false", "f", "no", "n", "0"].any fun w => utf8 w == s then some false
  else none

/-- Decimal digits after an optional sign. -/
def looksDecimal (s : Bytes) : Bool :=
  let digits := (Literal.splitSign s).2
  !digits.isEmpty && digits.all isDigit

/-- The value of a flag, as its kind reads it. -/
def FlagKind.read (s : Bytes) : FlagKind → Except FlagProblem FlagValue
  | text => .ok (.text s)
  | truth =>
    match truthOf? s with
    | some b => .ok (.truth b)
    | none => .error .notTruth
  | number =>
    match Literal.decimalInt? s with
    | some n => .ok (.number n)
    | none => .error (if looksDecimal s then .outOfRange s else .notNumber s)

/-- An argument that is a flag: it starts with a hyphen and is more than one or two of them. -/
def isFlag (argument : Bytes) : Bool :=
  argument.head? == some (byte '-') && argument != utf8 "-" && argument != utf8 "--"

/-- The name of a flag and the value that follows it after an equals sign or a space. -/
def splitFlag (argument : Bytes) : Bytes × Option Bytes :=
  let body := if argument.take 2 == utf8 "--" then argument.drop 2 else argument.drop 1
  let name := body.takeWhile fun c => c != byte '=' && c != 0x20
  (name, if name.length < body.length then some (body.drop (name.length + 1)) else none)

/-- Flags that were given, last first, so that the last of a name is found. -/
abbrev Flags := List (Bytes × FlagValue)

/-- A flag and the arguments after it. -/
def readFlag (kinds : List (Bytes × FlagKind)) (argument : Bytes) (rest : List Bytes) :
    Except ArgumentError ((Bytes × FlagValue) × List Bytes) :=
  let (name, value) := splitFlag argument
  let keep (rest : List Bytes) (r : Except FlagProblem FlagValue) :
      Except ArgumentError ((Bytes × FlagValue) × List Bytes) :=
    match r with
    | .ok v => .ok ((name, v), rest)
    | .error p => .error (.flag argument p)
  match kinds.lookup name, value, rest with
  | none, _, _ => .error (.flag argument .unknown)
  | some kind, some v, rest => keep rest (kind.read v)
  | some .truth, none, rest => .ok ((name, .truth true), rest)
  | some _, none, [] => .error (.flag argument .noValue)
  | some kind, none, v :: rest => keep rest (kind.read v)

/-! ## Command lines -/

/-- What the command line asks for. -/
structure Arguments where
  command : Option Command := none
  flags : Flags := []
  plain : List Bytes := []

namespace Arguments

/-- The value of a flag that is text. -/
def text (a : Arguments) (name : Bytes) : Bytes :=
  match a.flags.lookup name with
  | some (.text s) => s
  | _ => []

/-- The value of a flag that is true or false. -/
def truth (a : Arguments) (name : Bytes) : Bool :=
  match a.flags.lookup name with
  | some (.truth b) => b
  | _ => false

/-- The value of a flag that is a number. -/
def number (a : Arguments) (name : Bytes) : Int :=
  match a.flags.lookup name with
  | some (.number n) => n.toInt
  | _ => 0

/-- The plain arguments and flags of a command; after a double hyphen all are plain.  Plain arguments are kept last
first. -/
def readCommand (command : Command) (flags : Flags) (plain : List Bytes) :
    Nat → List Bytes → Except ArgumentError Arguments
  | 0, _ | _, [] => .ok ⟨some command, flags, plain.reverse⟩
  | fuel + 1, argument :: rest =>
    if argument == utf8 "--" then .ok ⟨some command, flags, plain.reverse ++ rest⟩
    else if isFlag argument then
      match readFlag (command.flags ++ rootFlags) argument rest with
      | .ok (flag, rest) => readCommand command (flag :: flags) plain fuel rest
      | .error e => .error e
    else readCommand command flags (argument :: plain) fuel rest

/-- The flags of the program up to a command, and what the command makes of the rest.  An error of a command comes
with the command. -/
def readFrom (flags : Flags) : Nat → List Bytes → Except (Option Command × ArgumentError) Arguments
  | 0, _ | _, [] => .ok { flags }
  | fuel + 1, argument :: rest =>
    if isFlag argument then
      match readFlag rootFlags argument rest with
      | .ok (flag, rest) => readFrom (flag :: flags) fuel rest
      | .error e => .error (none, e)
    else match Command.ofName? argument with
      | some command => (readCommand command flags [] rest.length rest).mapError fun e => (some command, e)
      | none => .error (none, .unexpected argument)

/-- Reads a command line. -/
def read (arguments : List Bytes) : Except (Option Command × ArgumentError) Arguments :=
  readFrom [] arguments.length arguments

end Arguments

end RegisterMachine
