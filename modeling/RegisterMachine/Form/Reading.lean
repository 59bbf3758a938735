import RegisterMachine.Form.Scanner

/-!
# Reading by a grammar

`Grammar.read g offset s` reads one form of the kind `g` from the text `s`, whose first byte stands at `offset`.
It gives the form and the rest of the text, or an error and the offset at which it arose.

Main statement: `Grammar.read_rest_lt`, a grammar that succeeds leaves a shorter text, so that reading form after
form (`Grammar.readMany`) ends.
-/

namespace RegisterMachine

/-- The outcome of reading one form: the form and the rest of the text, or an offset and an error. -/
abbrev Reading := Except (Nat × ReadError) (Form × Bytes)

/-- The error without the name of the alternative it arose in. -/
def ReadError.bare : ReadError → ReadError
  | .within _ inner => inner
  | e => e

/-- The bytes up to the next delimiter. -/
def atomText (s : Bytes) : Bytes := s.takeWhile fun c => !isDelimiter c

/-- The text after an atom. -/
def afterAtom (s : Bytes) : Bytes := s.dropWhile fun c => !isDelimiter c

/-- Reads what starts with the byte `mark`, with a scanner that is inside it. -/
def readMarked (g : Grammar) (mark : UInt8) (inside : Scanner) (offset : Nat) : Bytes → Reading
  | [] => .error (offset, .wanted g)
  | c :: rest =>
    if c != mark then .error (offset, .wanted g)
    else match inside.next rest with
      | .ok r => .ok r
      | .error f => .error (f.offset, f.error.bare)

/-- Reads an atom that is a number. -/
def readNumber (offset : Nat) (s : Bytes) : Reading :=
  match number? (spanOf offset (atomText s)) (atomText s) with
  | some x => .ok (x, afterAtom s)
  | none => .error (offset, .wanted .num)

/-- Reads an atom as an identifier, whatever it looks like. -/
def readIdent (offset : Nat) (s : Bytes) : Reading :=
  let name := atomText s
  if name.isEmpty then .error (offset, .wanted .ident)
  else match badRune? name with
    | some i => .error (offset + i, .badRune)
    | none => .ok (.ident (spanOf offset name) name, afterAtom s)

mutual

/-- Reads one form of a kind. -/
def Grammar.read : Grammar → Nat → Bytes → Reading
  | .form, offset, s =>
    match Scanner.next { offset := offset } s with
    | .ok r => .ok r
    | .error f => .error (f.offset, f.error)
  | .list, offset, s => readMarked .list 0x28 { offset := offset + 1, frames := [.list offset []] } offset s
  | .quote, offset, s => readMarked .quote 0x27 { offset := offset + 1, frames := [.quote offset] } offset s
  | .string, offset, s => readMarked .string 0x22 { offset := offset + 1, mode := .string offset [] } offset s
  | .num, offset, s => readNumber offset s
  | .ident, offset, s => readIdent offset s
  | .atom, offset, s =>
    match readNumber offset s with
    | .ok r => .ok r
    | .error _ => readIdent offset s
  | .anyOf gs, offset, s => Grammar.readAny gs gs none offset s

/-- Tries alternatives in order.  One that fails where it started is passed over; of the others the first decides
the error, unless a later alternative succeeds. -/
def Grammar.readAny (all : List Grammar) :
    List Grammar → Option (Nat × ReadError) → Nat → Bytes → Reading
  | [], some e, _, _ => .error e
  | [], none, offset, _ => .error (offset, .expected all)
  | g :: gs, first, offset, s =>
    match g.read offset s with
    | .ok r => .ok r
    | .error (i, e) =>
      Grammar.readAny all gs (first.or (if i = offset then none else some (i, .within g e))) offset s

end

/-! ## Progress -/

theorem Scanner.next_rest_le {s : Scanner} {text rest : Bytes} {x : Form}
    (h : s.next text = .ok (x, rest)) : rest.length ≤ text.length := by
  induction text generalizing s with
  | nil =>
    unfold Scanner.next at h
    dsimp only at h
    split at h <;> simp_all
  | cons c text ih =>
    unfold Scanner.next at h
    dsimp only at h
    split at h
    · simp only [Except.ok.injEq, Prod.mk.injEq] at h
      obtain ⟨-, rfl⟩ := h
      split <;> simp
    · simp at h
    · exact Nat.le_succ_of_le (ih h)

/-- Outside atoms and strings, with nothing open, no byte completes a form. -/
theorem Scanner.enter_done {s : Scanner} (c : UInt8) (hf : s.frames = []) : (s.enter c).done = s.done := by
  unfold Scanner.enter
  rw [hf]
  split <;> try rfl
  split <;> try rfl
  split <;> try rfl
  split <;> try rfl
  split
  · rfl
  split <;> try rfl
  split <;> rfl

theorem Scanner.next_start_lt {offset : Nat} {text rest : Bytes} {x : Form}
    (h : Scanner.next { offset := offset } text = .ok (x, rest)) : rest.length < text.length := by
  cases text with
  | nil => simp [Scanner.next, Scanner.finish] at h
  | cons c text =>
    unfold Scanner.next at h
    dsimp only at h
    have hd : (Scanner.step { offset := offset } c).done = [] := by
      simp [Scanner.step, Scanner.read, Scanner.enter_done]
    rw [hd] at h
    split at h
    · contradiction
    · simp at h
    · exact Nat.lt_succ_of_le (Scanner.next_rest_le h)

theorem readMarked_rest_lt {g : Grammar} {mark : UInt8} {inside : Scanner} {offset : Nat} {text rest : Bytes}
    {x : Form} (h : readMarked g mark inside offset text = .ok (x, rest)) : rest.length < text.length := by
  cases text with
  | nil => simp [readMarked] at h
  | cons c text =>
    rw [readMarked] at h
    split at h
    · simp at h
    · cases hr : inside.next text with
      | ok r =>
        rw [hr] at h
        obtain rfl := Except.ok.inj h
        exact Nat.lt_succ_of_le (Scanner.next_rest_le hr)
      | error f => rw [hr] at h; simp at h

theorem afterAtom_length_lt {s : Bytes} (h : (atomText s).isEmpty = false) :
    (afterAtom s).length < s.length := by
  have hs : s = atomText s ++ afterAtom s := (List.takeWhile_append_dropWhile ..).symm
  have hl := congrArg List.length hs
  rw [List.length_append] at hl
  have : (atomText s).length ≠ 0 := by
    intro h0
    rw [List.length_eq_zero_iff.mp h0] at h
    simp at h
  omega

theorem readNumber_rest_lt {offset : Nat} {text rest : Bytes} {x : Form}
    (h : readNumber offset text = .ok (x, rest)) : rest.length < text.length := by
  unfold readNumber at h
  split at h
  · rename_i y hy
    simp only [Except.ok.injEq, Prod.mk.injEq] at h
    obtain ⟨-, rfl⟩ := h
    refine afterAtom_length_lt ?_
    cases ht : atomText text with
    | nil => rw [ht] at hy; simp [number?] at hy
    | cons => rfl
  · simp at h

theorem readIdent_rest_lt {offset : Nat} {text rest : Bytes} {x : Form}
    (h : readIdent offset text = .ok (x, rest)) : rest.length < text.length := by
  unfold readIdent at h
  simp only at h
  split at h
  · simp at h
  · rename_i hne
    split at h
    · simp at h
    · simp only [Except.ok.injEq, Prod.mk.injEq] at h
      obtain ⟨-, rfl⟩ := h
      exact afterAtom_length_lt (by simpa using hne)

mutual

/-- Every grammar that succeeds consumes something. -/
theorem Grammar.read_rest_lt : ∀ (g : Grammar) {offset : Nat} {text rest : Bytes} {x : Form},
    g.read offset text = .ok (x, rest) → rest.length < text.length
  | .form, _, _, _, _, h => by
    unfold Grammar.read at h
    split at h
    · rename_i r hr
      obtain rfl := Except.ok.inj h
      exact Scanner.next_start_lt hr
    · simp at h
  | .list, _, _, _, _, h => by unfold Grammar.read at h; exact readMarked_rest_lt h
  | .quote, _, _, _, _, h => by unfold Grammar.read at h; exact readMarked_rest_lt h
  | .string, _, _, _, _, h => by unfold Grammar.read at h; exact readMarked_rest_lt h
  | .num, _, _, _, _, h => by unfold Grammar.read at h; exact readNumber_rest_lt h
  | .ident, _, _, _, _, h => by unfold Grammar.read at h; exact readIdent_rest_lt h
  | .atom, _, _, _, _, h => by
    unfold Grammar.read at h
    split at h
    · rename_i r hr
      obtain rfl := Except.ok.inj h
      exact readNumber_rest_lt hr
    · exact readIdent_rest_lt h
  | .anyOf gs, _, _, _, _, h => by
    unfold Grammar.read at h
    exact Grammar.readAny_rest_lt gs h

theorem Grammar.readAny_rest_lt {all : List Grammar} :
    ∀ (gs : List Grammar) {first : Option (Nat × ReadError)} {offset : Nat} {text rest : Bytes} {x : Form},
      Grammar.readAny all gs first offset text = .ok (x, rest) → rest.length < text.length
  | [], first, _, _, _, _, h => by cases first <;> simp [Grammar.readAny] at h
  | g :: gs, _, _, _, _, _, h => by
    unfold Grammar.readAny at h
    split at h
    · rename_i r hr
      obtain rfl := Except.ok.inj h
      exact Grammar.read_rest_lt g hr
    · exact Grammar.readAny_rest_lt gs h

end

/-! ## Form after form -/

/-- The forms of a text, one after the other with blanks between them, up to the first error. -/
def Grammar.readMany (g : Grammar) (offset : Nat) (text : Bytes) : List Form × Option (Nat × ReadError) :=
  match _hs : SpaceSet.all.skipBlanks text with
  | [] => ([], none)
  | c :: rest =>
    match _h : g.read (offset + (text.length - (c :: rest).length)) (c :: rest) with
    | .error e => ([], some e)
    | .ok (x, after) =>
      let more := g.readMany (offset + (text.length - after.length)) after
      (x :: more.1, more.2)
termination_by text.length
decreasing_by
  have h₁ := Grammar.read_rest_lt g _h
  have h₂ := SpaceSet.skipBlanks_length_le SpaceSet.all text
  rw [_hs] at h₂
  omega

end RegisterMachine
