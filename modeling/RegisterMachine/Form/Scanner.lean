import RegisterMachine.Form.Basic
import RegisterMachine.Form.Grammar
import RegisterMachine.Number.Literal
import RegisterMachine.Text.Blank
import RegisterMachine.Text.Rune

/-!
# Scanning forms

A scanner goes through a text byte by byte.  It remembers what it is in the middle of (`Mode`), which lists and
quotes are open around that (`Frame`, innermost first), and the top level forms that are complete.  The first
fault stops it for good.

* `Scanner.step`: one byte further.
* `Scanner.finish`: the end of the text.
* `scan`: all top level forms of a text, up to the first fault.
* `Scanner.next`: reads until one top level form is complete and returns the rest of the text.
-/

namespace RegisterMachine

/-- A list or quote that is open: where it starts and, for a list, its items so far, last first. -/
inductive Frame where
  | list (start : Nat) (items : List Form)
  | quote (start : Nat)

/-- What the scanner is in the middle of.  The bytes of an atom or string so far are kept last first. -/
inductive Mode where
  | blank
  | comment
  | atom (start : Nat) (bytes : Bytes)
  | string (start : Nat) (bytes : Bytes)
  | escape (start : Nat) (bytes : Bytes)

/-- Why scanning stopped. -/
inductive Cause where
  | endOfInput
  | unbalanced
  | unterminated
  | badRune
  | noForm
deriving DecidableEq, Repr

/-- A fault: its offset, its cause and the frames that were open. -/
structure Fault where
  offset : Nat
  cause : Cause
  frames : List Frame

/-- The error inside one more frame. -/
def Frame.enclose (e : ReadError) : Frame → ReadError
  | list _ items => .within .list (.item items.length e)
  | quote _ => .within .quote (.quoted e)

/-- The fault as a read error, in the contexts of its open frames. -/
def Fault.error (f : Fault) : ReadError :=
  match f.cause, f.frames with
  | .endOfInput, .list start _ :: outer =>
    outer.foldl Frame.enclose (.within .list (.openedAt start .endOfInput))
  | .endOfInput, frames => frames.foldl Frame.enclose .endOfInput
  | .unbalanced, frames => frames.foldl Frame.enclose .unbalanced
  | .unterminated, frames => frames.foldl Frame.enclose (.within .string (.unterminated .endOfInput))
  | .badRune, frames => frames.foldl Frame.enclose (.within .atom .badRune)
  | .noForm, frames => frames.foldl Frame.enclose (.expected Grammar.formAlternatives)

/-! ## Atoms -/

/-- The number that an atom denotes, if the whole of it is one.  It must contain a digit. -/
def number? (span : Span) (s : Bytes) : Option Form :=
  if !s.any isDigit then none
  else match Literal.decimalInt? s with
    | some n => some (.int span n)
    | none =>
      let marked := if (Literal.baseMark? (Literal.splitSign s).2).isSome then Literal.anyBaseInt? s else none
      match marked with
      | some n => some (.int span n)
      | none => (Literal.finiteFloat? s).map (.float span)

/-- The span of a piece of text that starts at `start`. -/
def spanOf (start : Nat) (s : Bytes) : Span := ⟨start, start + s.length⟩

/-- What an atom reads as: a number, else an identifier of valid characters; or the offset, from its start, of the
first byte that is no character. -/
def atom (start : Nat) (s : Bytes) : Except Nat Form :=
  match number? (spanOf start s) s with
  | some x => .ok x
  | none =>
    match badRune? s with
    | some i => .error i
    | none => .ok (.ident (spanOf start s) s)

/-! ## The scanner -/

/-- A scanner between two bytes. `done` holds the complete top level forms, last first. -/
structure Scanner where
  offset : Nat := 0
  mode : Mode := .blank
  frames : List Frame := []
  done : List Form := []
  fault : Option Fault := none

/-- The form `'x` whose quote mark is at `start`. -/
def quotedForm (start : Nat) (x : Form) : Form :=
  .list ⟨start, x.span.stop⟩ [.ident ⟨start, start + 1⟩ Form.quoteWord, x]

/-- Gives a complete form to the innermost frame.  A quote is complete with it and is passed on; a form that no
frame takes is a top level form. -/
def handOver : List Frame → Form → List Frame × Option Form
  | [], x => ([], some x)
  | .list start items :: outer, x => (.list start (x :: items) :: outer, none)
  | .quote start :: outer, x => handOver outer (quotedForm start x)

namespace Scanner

/-- Stops at `offset`. -/
def fail (s : Scanner) (offset : Nat) (cause : Cause) : Scanner :=
  { s with fault := some ⟨offset, cause, s.frames⟩ }

/-- A form is complete. -/
def deliver (s : Scanner) (x : Form) : Scanner :=
  match handOver s.frames x with
  | (frames, none) => { s with mode := .blank, frames := frames }
  | (frames, some top) => { s with mode := .blank, frames := frames, done := top :: s.done }

/-- The atom that starts at `start` is complete. -/
def endAtom (s : Scanner) (start : Nat) (bytes : Bytes) : Scanner :=
  match atom start bytes.reverse with
  | .ok x => s.deliver x
  | .error 0 => s.fail start .noForm
  | .error i => s.fail (start + i) .badRune

/-- A byte outside atoms, strings and comments. -/
def enter (s : Scanner) (c : UInt8) : Scanner :=
  if s.fault.isSome then s
  else if isSpace c then s
  else if c == byte ';' then { s with mode := .comment }
  else if c == 0x28 then { s with frames := .list s.offset [] :: s.frames }
  else if c == 0x29 then
    match s.frames with
    | .list start items :: outer =>
      deliver { s with frames := outer } (.list ⟨start, s.offset + 1⟩ items.reverse)
    | _ => s.fail s.offset .unbalanced
  else if c == 0x27 then { s with frames := .quote s.offset :: s.frames }
  else if c == 0x22 then { s with mode := .string s.offset [] }
  else { s with mode := .atom s.offset [c] }

/-- The next byte. -/
def read (s : Scanner) (c : UInt8) : Scanner :=
  match s.mode with
  | .blank => s.enter c
  | .comment => if c == byte '\n' then { s with mode := .blank } else s
  | .atom start bytes =>
    if isDelimiter c then (s.endAtom start bytes).enter c else { s with mode := .atom start (c :: bytes) }
  | .string start bytes =>
    if c == 0x22 then s.deliver (.string ⟨start, s.offset + 1⟩ bytes.reverse)
    else if c == 0x5C then { s with mode := .escape start bytes }
    else { s with mode := .string start (c :: bytes) }
  | .escape start bytes => { s with mode := .string start (c :: bytes) }

/-- The next byte, unless there was a fault. -/
def step (s : Scanner) (c : UInt8) : Scanner :=
  if s.fault.isSome then s else { s.read c with offset := s.offset + 1 }

/-- The end of the text: it ends an atom, and nothing may be open. -/
def finish (s : Scanner) : Scanner :=
  if s.fault.isSome then s
  else match s.mode with
    | .string .. | .escape .. => s.fail s.offset .unterminated
    | .atom start bytes =>
      let s := s.endAtom start bytes
      if s.fault.isSome || s.frames.isEmpty then s else s.fail s.offset .endOfInput
    | _ => if s.frames.isEmpty then s else s.fail s.offset .endOfInput

/-- Reads on until one top level form is complete.  The byte after an atom is left in the rest. -/
def next (s : Scanner) : Bytes → Except Fault (Form × Bytes)
  | [] =>
    let s := s.finish
    match s.done, s.fault with
    | x :: _, _ => .ok (x, [])
    | [], some f => .error f
    | [], none => .error ⟨s.offset, .endOfInput, []⟩
  | c :: rest =>
    let t := s.step c
    match t.done, t.fault with
    | x :: _, _ => .ok (x, if x.span.stop ≤ s.offset then c :: rest else rest)
    | [], some f => .error f
    | [], none => t.next rest

end Scanner

/-- All top level forms of a text, up to the first fault. -/
def scan (text : Bytes) : List Form × Option Fault :=
  let s := (text.foldl Scanner.step {}).finish
  (s.done.reverse, s.fault)

end RegisterMachine
