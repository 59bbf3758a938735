import RegisterMachine.Proofs.Faults

/-!
# Reading does not depend on the place

What a scanner does with a text depends on the bytes from its start on: behind another text it does the same, with
every offset moved by the length of that text and the forms of that text kept before its own.  So the forms of a
text of complete lines and of what follows it are those of the two texts.

* `Form.shift n`, `ReadError.shift n`: every offset in a form or an error, moved by `n`.
* `Scanner.behind n xs s`: the scanner `s` behind a text of `n` bytes with the forms `xs`.
* `Scanner.step_behind`, `Scanner.finish_behind`: every step commutes with it, and so does a whole run.
* `scan_lines`, `Source.readAll_lines`: a text cut behind a line end.
-/

namespace RegisterMachine

/-! ## Moving offsets -/

/-- The span `n` bytes further on. -/
def Span.shift (n : Nat) (s : Span) : Span := ⟨n + s.start, n + s.stop⟩

namespace Form

mutual

/-- The form `n` bytes further on. -/
def shift (n : Nat) : Form → Form
  | ident s name => ident (s.shift n) name
  | int s value => int (s.shift n) value
  | float s value => float (s.shift n) value
  | string s value => string (s.shift n) value
  | list s items => list (s.shift n) (shifts n items)
  | missing => missing

/-- The forms `n` bytes further on. -/
def shifts (n : Nat) : List Form → List Form
  | [] => []
  | x :: rest => x.shift n :: shifts n rest

end

theorem shifts_eq_map (n : Nat) (xs : List Form) : shifts n xs = xs.map (shift n) := by
  induction xs with
  | nil => rfl
  | cons x xs ih => rw [shifts, ih, List.map_cons]

@[simp] theorem shift_list (n : Nat) (s : Span) (items : List Form) :
    (list s items).shift n = list (s.shift n) (items.map (shift n)) := by
  rw [shift, shifts_eq_map]

mutual

theorem bare_shift (n : Nat) : ∀ x : Form, (x.shift n).bare = x.bare
  | ident .. => rfl
  | int .. => rfl
  | float .. => rfl
  | string .. => rfl
  | list _ items => by rw [shift, bare, bare, bares_shifts n items]
  | missing => rfl

theorem bares_shifts (n : Nat) : ∀ xs : List Form, bares (shifts n xs) = bares xs
  | [] => rfl
  | x :: xs => by rw [shifts, bares, bares, bare_shift n x, bares_shifts n xs]

end

/-- Values do not depend on the place. -/
theorem data_shift (n : Nat) (xs : List Form) : data (xs.map (shift n)) = data xs := by
  rw [← shifts_eq_map, ← data_bares, bares_shifts, data_bares]

theorem span_shift (n : Nat) {x : Form} (hx : x ≠ missing) : (x.shift n).span = x.span.shift n := by
  cases x with
  | missing => exact absurd rfl hx
  | _ => rfl

theorem shift_quotedForm (n start : Nat) {x : Form} (hx : x ≠ missing) :
    quotedForm (n + start) (x.shift n) = (quotedForm start x).shift n := by
  rw [quotedForm, quotedForm, shift_list, span_shift n hx]
  rfl

theorem quotedForm_ne_missing (start : Nat) (x : Form) : quotedForm start x ≠ missing := by
  intro h
  cases h

end Form

/-- The frame `n` bytes further on. -/
def Frame.shift (n : Nat) : Frame → Frame
  | list start items => list (n + start) (items.map (Form.shift n))
  | quote start => quote (n + start)

/-- The mode `n` bytes further on. -/
def Mode.shift (n : Nat) : Mode → Mode
  | blank => blank
  | comment => comment
  | atom start w => atom (n + start) w
  | string start w => string (n + start) w
  | escape start w => escape (n + start) w

/-- The fault `n` bytes further on. -/
def Fault.shift (n : Nat) (f : Fault) : Fault := ⟨n + f.offset, f.cause, f.frames.map (Frame.shift n)⟩

namespace ReadError

/-- The error `n` bytes further on: the places of open lists move. -/
def shift (n : Nat) : ReadError → ReadError
  | within g inner => within g (inner.shift n)
  | item index inner => item index (inner.shift n)
  | quoted inner => quoted (inner.shift n)
  | openedAt offset inner => openedAt (n + offset) (inner.shift n)
  | unterminated inner => unterminated (inner.shift n)
  | e => e

/-- What an error comes from has no place in it. -/
theorem root_shift (n : Nat) (e : ReadError) : (e.shift n).root = e.root := by
  induction e with
  | within _ inner ih | item _ inner ih | quoted inner ih | openedAt _ inner ih | unterminated inner ih => exact ih
  | _ => rfl

end ReadError

theorem Frame.enclose_shift (n : Nat) (e : ReadError) (f : Frame) :
    Frame.enclose (e.shift n) (f.shift n) = (Frame.enclose e f).shift n := by
  cases f with
  | list start items => simp only [Frame.shift, Frame.enclose, List.length_map, ReadError.shift]
  | quote start => rfl

theorem foldl_enclose_shift (n : Nat) (frames : List Frame) (e : ReadError) :
    (frames.map (Frame.shift n)).foldl Frame.enclose (e.shift n) = (frames.foldl Frame.enclose e).shift n := by
  induction frames generalizing e with
  | nil => rfl
  | cons f frames ih => rw [List.map_cons, List.foldl_cons, List.foldl_cons, Frame.enclose_shift, ih]

theorem Fault.error_shift (n : Nat) (f : Fault) : (f.shift n).error = f.error.shift n := by
  obtain ⟨offset, cause, frames⟩ := f
  cases cause with
  | endOfInput =>
    cases frames with
    | nil => rfl
    | cons f frames =>
      cases f with
      | list start items => exact foldl_enclose_shift n frames (.within .list (.openedAt start .endOfInput))
      | quote start => exact foldl_enclose_shift n (.quote start :: frames) .endOfInput
  | unbalanced => exact foldl_enclose_shift n frames .unbalanced
  | unterminated => exact foldl_enclose_shift n frames (.within .string (.unterminated .endOfInput))
  | badRune => exact foldl_enclose_shift n frames (.within .atom .badRune)
  | noForm => exact foldl_enclose_shift n frames (.expected Grammar.formAlternatives)

/-! ## Atoms -/

theorem number?_shift (n : Nat) (span : Span) (w : Bytes) :
    number? (span.shift n) w = (number? span w).map (Form.shift n) := by
  unfold number?
  split
  · rfl
  split
  · rfl
  dsimp only
  split
  · rfl
  · cases Literal.finiteFloat? w <;> rfl

theorem spanOf_shift (n start : Nat) (w : Bytes) : spanOf (n + start) w = (spanOf start w).shift n := by
  rw [spanOf, spanOf, Span.shift, Nat.add_assoc]

theorem atom_shift (n start : Nat) (w : Bytes) : atom (n + start) w = (atom start w).map (Form.shift n) := by
  unfold atom
  rw [spanOf_shift, number?_shift]
  cases number? (spanOf start w) w with
  | some x => rfl
  | none => cases badRune? w <;> rfl

theorem atom_ne_missing {start : Nat} {w : Bytes} {x : Form} (h : atom start w = .ok x) : x ≠ .missing := by
  unfold atom at h
  split at h
  · next hn =>
    cases h
    rcases number?_kind hn with ⟨n, rfl⟩ | ⟨v, rfl, -⟩ <;> exact Form.noConfusion
  · split at h
    · cases h
    · cases h
      exact Form.noConfusion

theorem handOver_shift (n : Nat) (frames : List Frame) {x : Form} (hx : x ≠ .missing) :
    handOver (frames.map (Frame.shift n)) (x.shift n) =
      ((handOver frames x).1.map (Frame.shift n), (handOver frames x).2.map (Form.shift n)) := by
  induction frames generalizing x with
  | nil => rfl
  | cons f outer ih =>
    cases f with
    | list start items => rfl
    | quote start =>
      rw [handOver, ← ih (Form.quotedForm_ne_missing start x), ← Form.shift_quotedForm n start hx]
      rfl

/-! ## The scanner behind another text -/

namespace Scanner

variable (n : Nat) (xs : List Form) (s : Scanner)

/-- The scanner behind a text of `n` bytes with the complete forms `xs`, last first. -/
def behind : Scanner where
  offset := n + s.offset
  mode := s.mode.shift n
  frames := s.frames.map (Frame.shift n)
  done := s.done.map (Form.shift n) ++ xs
  fault := s.fault.map (Fault.shift n)

theorem behind_start : behind n [] {} = { offset := n } := rfl

theorem fail_behind (offset : Nat) (cause : Cause) :
    (s.behind n xs).fail (n + offset) cause = (s.fail offset cause).behind n xs := rfl

theorem isSome_fault_behind : (s.behind n xs).fault.isSome = s.fault.isSome := Option.isSome_map ..

theorem deliver_eq (x : Form) : s.deliver x =
    { s with
      mode := .blank, frames := (handOver s.frames x).1, done := (handOver s.frames x).2.toList ++ s.done } := by
  unfold deliver
  split <;> next h => rw [h]; rfl

theorem deliver_behind {x : Form} (hx : x ≠ .missing) :
    (s.behind n xs).deliver (x.shift n) = (s.deliver x).behind n xs := by
  have h : handOver (s.behind n xs).frames (x.shift n) = _ := handOver_shift n s.frames hx
  rw [deliver_eq, deliver_eq, h]
  cases (handOver s.frames x).2 with
  | none => rfl
  | some top => rfl

theorem endAtom_behind (start : Nat) (w : Bytes) :
    (s.behind n xs).endAtom (n + start) w = (s.endAtom start w).behind n xs := by
  unfold endAtom
  rw [atom_shift]
  cases ha : atom start w.reverse with
  | ok x => exact s.deliver_behind n xs (atom_ne_missing ha)
  | error i =>
    cases i with
    | zero => rfl
    | succ i =>
      show (s.behind n xs).fail (n + start + (i + 1)) .badRune = _
      rw [Nat.add_assoc]
      rfl

theorem enter_behind (c : UInt8) : (s.behind n xs).enter c = (s.enter c).behind n xs := by
  unfold enter
  rw [isSome_fault_behind]
  split
  · rfl
  split
  · rfl
  split
  · rfl
  split
  · rfl
  split
  · cases hf : s.frames with
    | nil =>
      have hb : (s.behind n xs).frames = [] := by rw [behind, hf]; rfl
      rw [hb]
      exact fail_behind n xs s s.offset .unbalanced
    | cons f outer =>
      have hb : (s.behind n xs).frames = f.shift n :: outer.map (Frame.shift n) := by rw [behind, hf]; rfl
      rw [hb]
      cases f with
      | list start items =>
        have := deliver_behind n xs { s with frames := outer }
          (x := .list ⟨start, s.offset + 1⟩ items.reverse) Form.noConfusion
        rw [Form.shift_list, List.map_reverse] at this
        exact this
      | quote start => exact fail_behind n xs s s.offset .unbalanced
  split
  · rfl
  split <;> rfl

theorem read_behind (c : UInt8) : (s.behind n xs).read c = (s.read c).behind n xs := by
  have hmode : (s.behind n xs).mode = s.mode.shift n := rfl
  unfold read
  rw [hmode]
  cases hm : s.mode with
  | blank => exact s.enter_behind n xs c
  | comment =>
    dsimp only [Mode.shift]
    split
    · rfl
    · rfl
  | atom start w =>
    dsimp only [Mode.shift]
    split
    · rw [endAtom_behind, enter_behind]
    · rfl
  | string start w =>
    dsimp only [Mode.shift]
    split
    · exact s.deliver_behind n xs (x := .string ⟨start, s.offset + 1⟩ w.reverse) Form.noConfusion
    · split <;> rfl
  | escape start w => rfl

/-- **A step behind another text** is the step, behind that text. -/
theorem step_behind (c : UInt8) : (s.behind n xs).step c = (s.step c).behind n xs := by
  unfold step
  rw [isSome_fault_behind, read_behind]
  split <;> rfl

theorem foldl_step_behind (t : Bytes) : t.foldl step (s.behind n xs) = (t.foldl step s).behind n xs := by
  induction t generalizing s with
  | nil => rfl
  | cons c t ih => rw [List.foldl_cons, step_behind, ih, List.foldl_cons]

theorem isEmpty_frames_behind : (s.behind n xs).frames.isEmpty = s.frames.isEmpty := List.isEmpty_map

theorem finish_behind : (s.behind n xs).finish = s.finish.behind n xs := by
  have hmode : (s.behind n xs).mode = s.mode.shift n := rfl
  unfold finish
  rw [isSome_fault_behind, hmode]
  split
  · rfl
  cases hm : s.mode with
  | blank | comment =>
    dsimp only [Mode.shift]
    rw [isEmpty_frames_behind]
    split <;> rfl
  | atom start w =>
    dsimp only [Mode.shift]
    rw [endAtom_behind, isSome_fault_behind, isEmpty_frames_behind]
    split <;> rfl
  | string start w | escape start w => rfl

end Scanner

/-! ## Complete lines -/

/-- Behind complete lines with the forms `xs` the scanner starts again. -/
theorem foldl_step_lines {p : Bytes} {xs : List Form} (hp : p.getLast? = some (byte '\n'))
    (h : scan p = (xs, none)) : p.foldl Scanner.step {} = Scanner.behind p.length xs.reverse {} := by
  obtain ⟨u, rfl⟩ := List.getLast?_eq_some_iff.mp hp
  obtain ⟨hdone, hfin⟩ := Prod.mk.inj h
  have htracks := Scanner.tracks_foldl (u ++ [byte '\n'])
  have hf : ((u ++ [byte '\n']).foldl Scanner.step {}).fault = none := Scanner.fault_of_foldl (t := []) hfin
  have hends := Scanner.foldl_lineFeed hf
  generalize (u ++ [byte '\n']).foldl Scanner.step {} = s at hdone hfin htracks hf hends
  rcases hends with ⟨hm, hfr, he⟩ | ⟨f, he, -⟩
  · rw [he] at hdone
    have hoff := htracks.offset hf
    obtain ⟨offset, mode, frames, done, fault⟩ := s
    obtain rfl : offset = (u ++ [byte '\n']).length := hoff
    obtain rfl : mode = .blank := hm
    obtain rfl : frames = [] := hfr
    obtain rfl : fault = none := hf
    obtain rfl : done = xs.reverse := by rw [← hdone, List.reverse_reverse]
    rfl
  · rw [hfin] at he
    cases he

/-- **Scanning distributes over complete lines.** -/
theorem scan_lines {p : Bytes} {xs : List Form} (hp : p.getLast? = some (byte '\n')) (h : scan p = (xs, none))
    (q : Bytes) :
    scan (p ++ q) = (xs ++ (scan q).1.map (Form.shift p.length), (scan q).2.map (Fault.shift p.length)) := by
  rw [scan_eq, List.foldl_append, foldl_step_lines hp h, Scanner.foldl_step_behind,
    Scanner.finish_behind, scan_eq q]
  simp only [Scanner.behind, List.reverse_append, List.reverse_reverse, List.map_reverse]

/-- **Reading distributes over complete lines.**  Let `p` end with a line end and be read to its end as `xs`.
Behind it any text `q` is read as it is alone: its forms follow `xs` with every offset in them greater by the
length of `p`; there is an error exactly if there is one in `q`, and then it is the same error, from the same
cause, at an offset greater by that length. -/
theorem Source.readAll_lines {p : Bytes} {xs : List Form} (hp : p.getLast? = some (byte '\n'))
    (h : (Source.ofText p).readAll = (xs, none)) (q : Bytes) :
    (Source.ofText (p ++ q)).readAll.1 = xs ++ (Source.ofText q).readAll.1.map (Form.shift p.length) ∧
    ((Source.ofText (p ++ q)).readAll.2 = none ↔ (Source.ofText q).readAll.2 = none) ∧
    ∀ err, (Source.ofText q).readAll.2 = some err → ∃ offset e,
      ReadingStops q (Source.ofText q).readAll.1 offset e ∧
      ReadingStops (p ++ q) (Source.ofText (p ++ q)).readAll.1 (p.length + offset) (e.shift p.length) ∧
      (e.shift p.length).root = e.root := by
  have hscan : scan p = (xs, none) := by
    have := (Source.readAll_eq_iff _ _).mp h
    rw [Source.text_ofText] at this
    exact Prod.ext this.2 this.1
  have hlines := scan_lines hp hscan q
  rw [Source.readAll_ofText, Source.readAll_ofText, hlines]
  refine ⟨rfl, by simp, fun err herr => ?_⟩
  obtain ⟨f, hf, -⟩ := Option.map_eq_some_iff.mp herr
  refine ⟨f.offset, f.error, readingStops_iff.mpr ⟨f, Prod.ext rfl hf, rfl, rfl⟩,
    readingStops_iff.mpr ⟨f.shift p.length, ?_, rfl, f.error_shift p.length⟩, f.error.root_shift p.length⟩
  rw [hlines, hf]
  rfl

/-- Behind a line with a form and a comment, an open list is reported where it stands in the whole text. -/
theorem Source.readAll_lines_open_list :
    (Source.ofText (utf8 "a;(\n")).readAll = ([.ident ⟨0, 1⟩ (utf8 "a")], none) ∧
      ReadingStops (utf8 "b (") [.ident ⟨0, 1⟩ (utf8 "b")] 3 (.within .list (.openedAt 2 .endOfInput)) ∧
      ReadingStops (utf8 "a;(\n" ++ utf8 "b (") [.ident ⟨0, 1⟩ (utf8 "a"), .ident ⟨4, 5⟩ (utf8 "b")] 7
        (.within .list (.openedAt 6 .endOfInput)) := by
  have hread : (Source.ofText (utf8 "a;(\n")).readAll = ([.ident ⟨0, 1⟩ (utf8 "a")], none) := rfl
  have hstops : ReadingStops (utf8 "b (") [.ident ⟨0, 1⟩ (utf8 "b")] 3 (.within .list (.openedAt 2 .endOfInput)) :=
    ⟨by decide, rfl⟩
  obtain ⟨hforms, -, hfails⟩ := Source.readAll_lines rfl hread (utf8 "b (")
  obtain ⟨offset, e, hq, hpq, -⟩ := hfails _ rfl
  obtain ⟨rfl, rfl⟩ := hq.unique hstops
  rw [hforms] at hpq
  exact ⟨hread, hstops, hpq⟩

end RegisterMachine
