import RegisterMachine.Description.Basic
import RegisterMachine.Description.Path
import RegisterMachine.Description.Toml.Document
import RegisterMachine.Description.Yaml.Decode

/-!
# Descriptions from documents

A description is a document with the keys `registers`, `operations`, `controller`, `source`, `init` and `print`;
other keys are not looked at.

* `Format.ofName?`, `Format.ofFile?`: the format that a name or an extension stands for.
* `Description.decode?`: the description in a document.
-/

namespace RegisterMachine

/-- The formats of machine descriptions; the last one is only another name. -/
inductive Format where
  | toml | yaml | yml

/-- The name of a format. -/
def Format.name : Format → Bytes
  | toml => "toml"
  | yaml => "yaml"
  | yml => "yml"

/-- The format of a name. -/
def Format.ofName? (name : Bytes) : Option Format := [Format.toml, .yaml, .yml].find? fun f => f.name == name

/-- The format that the extension of a file name stands for, in any case. -/
def Format.ofFile? (name : Bytes) : Option Format :=
  match lower (Path.extension name) with
  | _ :: ext => ofName? ext
  | [] => none

/-! ## TOML -/

namespace Toml

/-- A key in small letters; the long s counts as an s. -/
def folded : Bytes → Bytes
  | 0xC5 :: 0xBF :: rest => byte 's' :: folded rest
  | c :: rest => lowerByte c :: folded rest
  | [] => []

/-- The values that are given for a name, which keys may spell in any case; the exact spelling comes last. -/
def valuesFor (entries : Entries) (name : Bytes) : List Value :=
  let found := entries.filter fun e => folded e.1 == name
  (found.filter (·.1 != name) ++ found.filter (·.1 == name)).map (·.2)

/-- A string. -/
def stringOf? : Value → Option Bytes
  | .string s => some s
  | _ => none

/-- A list of strings. -/
def stringsOf? : Value → Option (List Bytes)
  | .list items => items.mapM stringOf?
  | _ => none

/-- The entries of a table; anything else has none. -/
def entriesOf : Value → Entries
  | .table entries => entries
  | _ => []

/-- What is given for a name, each time as `read?` reads it, and `{}` if nothing is given. -/
def last? {α : Type} [EmptyCollection α] (read? : Value → Option α) (entries : Entries) (name : Bytes) :
    Option α :=
  ((valuesFor entries name).mapM read?).map fun found => found.getLast?.getD {}

/-- The description in a document.  Tables that are given more than once are taken together. -/
def description? (s : Bytes) : Option Description := do
  let entries ← document? s
  return {
    registers := ← last? stringsOf? entries "registers"
    operations := ← last? stringsOf? entries "operations"
    controller := ← last? stringOf? entries "controller"
    source := ← last? stringOf? entries "source"
    init := ((valuesFor entries "init").flatMap entriesOf).foldl (fun es e => putEntry e.1 e.2 es) []
    print := ← last? stringsOf? entries "print" }

end Toml

/-- The description in a document, with its initial values as registers hold them. -/
def Description.decode? (format : Format) (s : Bytes) : Option Description :=
  let d := match format with
    | .toml => Toml.description? s
    | .yaml | .yml => Yaml.description? s
  d.map fun d => { d with init := d.init.map fun e => (e.1, e.2.normal) }

end RegisterMachine
