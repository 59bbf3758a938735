import RegisterMachine.Operation.Basic

/-!
# Printing and reading

* `Dialogue.print`: the arguments on one line.
* `Dialogue.read`, `Input.next`: one value at a time from input that comes line by line.  A form may go on over
  several lines; the forms of a line are queued.  Text with an error in it is dropped up to the end of its line.
-/

namespace RegisterMachine

/-- A value as `print` shows it: strings are bare. -/
def Value.shown : Value → Bytes
  | .string s => s
  | v => v.text

/-- Arguments separated by spaces, with a line end. -/
def printedLine (args : List Value) : Bytes := join " " (args.map Value.shown) ++ [byte '\n']

/-! ## Lines -/

/-- The first line with its line end, and the text after it; none if there is no line end. -/
def line? : Bytes → Option (Bytes × Bytes)
  | [] => none
  | c :: rest => if c == byte '\n' then some ([c], rest) else (line? rest).map fun p => (c :: p.1, p.2)

theorem line?_eq_append {s line rest : Bytes} (h : line? s = some (line, rest)) : s = line ++ rest := by
  induction s generalizing line with
  | nil => simp [line?] at h
  | cons c s ih =>
    unfold line? at h
    split at h
    · obtain ⟨rfl, rfl⟩ := Prod.mk.inj (Option.some.inj h)
      rfl
    · obtain ⟨p, hp, hq⟩ := Option.map_eq_some_iff.mp h
      obtain ⟨rfl, rfl⟩ := Prod.mk.inj hq
      rw [ih hp, List.cons_append]

theorem line?_ne_nil {s line rest : Bytes} (h : line? s = some (line, rest)) : line ≠ [] := by
  cases s with
  | nil => simp [line?] at h
  | cons c s =>
    unfold line? at h
    split at h
    · obtain ⟨rfl, rfl⟩ := Prod.mk.inj (Option.some.inj h)
      simp
    · obtain ⟨p, hp, hq⟩ := Option.map_eq_some_iff.mp h
      obtain ⟨rfl, rfl⟩ := Prod.mk.inj hq
      simp

theorem line?_rest_lt {s line rest : Bytes} (h : line? s = some (line, rest)) : rest.length < s.length := by
  have hne := List.length_pos_iff.mpr (line?_ne_nil h)
  rw [line?_eq_append h, List.length_append]
  omega

/-! ## Reading -/

/-- The text ended in the middle of a form. -/
def SyntaxError.isIncomplete (e : SyntaxError) : Bool :=
  match e.problem with
  | .unreadable error => match error.root with
    | .endOfInput => true
    | _ => false
  | .leftover _ => false

namespace Input

/-- The next value when no line end is left: the text that is there must be complete.  If the input then fails, its
values stay queued. -/
def last (i : Input) : Except Failure Value × Input :=
  let rest := { i with pending := [], buffer := [] }
  match (Source.ofText (i.buffer ++ i.pending)).readAll, i.failure with
  | (_, some e), _ => (.error (.badInput e), rest)
  | (forms, none), some e => (.error (.inputFailed e), { rest with queue := Form.data forms })
  | (forms, none), none =>
    match Form.data forms with
    | [] => (.error .endOfInput, rest)
    | v :: vs => (.ok v, { rest with queue := vs })

/-- The next value: from the queue, else from the next lines up to the first one that completes a form. -/
def next (i : Input) : Except Failure Value × Input :=
  match i.queue with
  | v :: vs => (.ok v, { i with queue := vs })
  | [] =>
    match _h : line? i.pending with
    | none => i.last
    | some (line, rest) =>
      match (Source.ofText (i.buffer ++ line)).readAll with
      | (forms, none) => next { i with pending := rest, buffer := [], queue := Form.data forms }
      | (_, some e) =>
        if e.isIncomplete then next { i with pending := rest, buffer := i.buffer ++ line }
        else (.error (.badInput e), { i with pending := rest, buffer := [] })
termination_by i.pending.length
decreasing_by all_goals exact line?_rest_lt _h

end Input

namespace Dialogue

/-- Writes the arguments. -/
def print : Operation := fun args w =>
  match w.console.output.write (printedLine args) with
  | .ok o => (.value .nil, { w with console := { w.console with output := o } })
  | .error e => (.failure (.outputFailed e), w)

/-- Reads one value; there are no arguments. -/
def read : Operation := fun args w =>
  if !args.isEmpty then (.failure (.argCount 0 args.length), w)
  else match w.console.input with
    | none => (.failure .noInput, w)
    | some i =>
      let (r, i) := i.next
      (.ofExcept r, { w with console := { w.console with input := some i } })

end Dialogue

end RegisterMachine
