import RegisterMachine.Description.Decode
import RegisterMachine.Description.Files
import RegisterMachine.Machine.Compile
import RegisterMachine.Operation.Standard

/-!
# Machines from descriptions and files

* `Description.load`: the description in a file.
* `Machine.ofDescription`: the machine that a description and the text of its controller make.
* `Machine.load`, `Machine.loadFile`, `Machine.compileFile`: machines from files.

Everything that reads files does so through a `FileSystem`, in whatever monad that lives.
-/

namespace RegisterMachine

/-- What a file was read for. -/
inductive FileUse where
  | controller | description | program

/-- What a file was read for, as error texts say it. -/
def FileUse.text : FileUse → Bytes
  | controller => "read controller"
  | description => "read config"
  | program => "read file"

/-- Why a machine or a description could not be loaded. -/
inductive LoadError where
  | unreadable (use : FileUse) (error : FileError)
  | unknownFormat (name : Bytes)
  /-- A document that is wrong; the file name is empty if it came from none. -/
  | undecodable (file : Bytes) (format : Format)
  | invalid (problems : List Problem)
  | unknownOperation (name : Bytes)
  | noController
  | badController (error : CompileError)
  | unknownRegister (name : Bytes)

/-- The text of an error that names an unknown operation. -/
def unknownOperationText (name : Bytes) : Bytes := withContext name "unknown operation"

/-- The text of a load error. -/
def LoadError.message : LoadError → Bytes
  | unreadable use e => withContext use.text e.message
  | unknownFormat name => withContext name "unknown config format"
  | undecodable file format => withContext file (utf8 "decode " ++ format.name)
  | invalid problems => withContext "validate" (listedErrors (problems.map Problem.message))
  | unknownOperation name => unknownOperationText name
  | noController => Problem.noController.message
  | badController e => e.message
  | unknownRegister name => withContext "init" (unknownRegisterText name)

/-! ## Descriptions -/

namespace Description

/-- The description in a document of a named format. -/
def parse (format text : Bytes) : Except LoadError Description :=
  match Format.ofName? format with
  | none => .error (.unknownFormat format)
  | some f =>
    match decode? f text with
    | some d => .ok d
    | none => .error (.undecodable [] f)

/-- The description in a file, whose directory is where its controller is looked up. -/
def load {m : Type → Type} [Monad m] (fs : FileSystem m) (name : Bytes) : m (Except LoadError Description) := do
  match Format.ofFile? name with
  | none => return .error (.unknownFormat (Path.extension name))
  | some format =>
    match ← fs.contents name with
    | .error e => return .error (.unreadable .description e)
    | .ok text =>
      match decode? format text with
      | none => return .error (.undecodable name format)
      | some d => return .ok { d with directory := Path.directory name }

/-- The description of a machine whose controller is a file and that is not described any further. -/
def ofController (name : Bytes) : Description :=
  { controller := Path.base name, directory := Path.directory name }

/-- The description that a file holds, or that stands for it if it is a controller. -/
def ofFile {m : Type → Type} [Monad m] (fs : FileSystem m) (name : Bytes) : m (Except LoadError Description) :=
  if (Format.ofFile? name).isSome then load fs name else return .ok (ofController name)

/-- The name of the controller file; empty if the text of the controller is part of the description. -/
def controllerName (d : Description) : Bytes :=
  if !d.source.isEmpty || d.controller.isEmpty then []
  else if Path.isAbsolute d.controller then d.controller
  else Path.below d.directory d.controller

/-- The text of the controller. -/
def controllerText {m : Type → Type} [Monad m] (fs : FileSystem m) (d : Description) :
    m (Except LoadError Bytes) := do
  if !d.source.isEmpty then return .ok d.source
  else if d.controller.isEmpty then return .error .noController
  else match ← fs.contents d.controllerName with
    | .ok text => return .ok text
    | .error e => return .error (.unreadable .controller e)

/-- A standard operation has that name. -/
def isStandard (name : Bytes) : Bool := (Table.standard.lookup name).isSome

/-- The operations that a description selects, if it is valid. -/
def table (d : Description) : Except LoadError Table :=
  match d.problems (some isStandard) with
  | [] =>
    match Table.standard.select d.operations with
    | .ok t => .ok t
    | .error name => .error (.unknownOperation name)
  | problems => .error (.invalid problems)

end Description

/-! ## Machines -/

namespace Machine

/-- The machine that a description and the text of its controller make, with its initial values. -/
def ofDescription (serial : Nat) (d : Description) (table : Table) (controller : Bytes) (console : Console) :
    Except LoadError Machine :=
  let registers := if d.registers.isEmpty then none else some d.registers
  match compile serial ⟨d.controllerName, controller⟩ registers table console with
  | .error e => .error (.badController e)
  | .ok m =>
    match m.preset d.init with
    | (.ok _, m) => .ok m
    | (.error name, _) => .error (.unknownRegister name)

variable {m : Type → Type} [Monad m]

/-- The machine of a description. -/
def load (fs : FileSystem m) (serial : Nat) (d : Description) (console : Console) :
    m (Except LoadError Machine) := do
  match d.table with
  | .error e => return .error e
  | .ok table =>
    match ← d.controllerText fs with
    | .error e => return .error e
    | .ok text => return ofDescription serial d table text console

/-- The machine of a description file or a controller file.  The description is given too if there is one, also
beside an error. -/
def loadFile (fs : FileSystem m) (serial : Nat) (name : Bytes) (console : Console) :
    m (Option Description × Except LoadError Machine) := do
  match ← Description.ofFile fs name with
  | .error e => return (none, .error e)
  | .ok d => return (some d, ← load fs serial d console)

/-- The machine of a controller file. -/
def compileFile (fs : FileSystem m) (serial : Nat) (name : Bytes) (registers : Option (List Bytes)) (host : Table)
    (console : Console) : m (Except LoadError Machine) := do
  match ← fs.contents name with
  | .error e => return .error (.unreadable .program e)
  | .ok text => return (compile serial ⟨name, text⟩ registers host console).mapError .badController

end Machine

end RegisterMachine
