import RegisterMachine.Proofs.FirstOfAll
import RegisterMachine.Proofs.Layout

/-!
# Forms inside of others

A form that stands inside of lists and quotes is read as it is alone.  The frames around it wait until it is
complete, and then take it.

* `Scanner.inside outer s`: the scanner `s` with more frames open around everything.
* `Scanner.Engaged`: the scanner is in the middle of a form, so that the frames around it are not looked at.
* `Scanner.goOn outer x r`: what happens to the complete form `x` inside of frames, before the text `r`.
* `Scanner.next_inside`: reading inside of frames is reading alone, and then going on.
-/

namespace RegisterMachine

open Syntax

/-! ## More frames -/

/-- The fault with more frames open around it. -/
def Fault.inside (outer : List Frame) (f : Fault) : Fault := { f with frames := f.frames ++ outer }

theorem handOver_append_of_none {inner frames : List Frame} {x : Form} (h : handOver inner x = (frames, none))
    (outer : List Frame) : handOver (inner ++ outer) x = (frames ++ outer, none) ∧ frames ≠ [] := by
  induction inner generalizing x with
  | nil => cases h
  | cons f inner ih =>
    cases f with
    | list start items =>
      cases h
      exact ⟨rfl, List.cons_ne_nil _ _⟩
    | quote start => exact ih (x := quotedForm start x) h

theorem handOver_append_of_some {inner frames : List Frame} {x y : Form} (h : handOver inner x = (frames, some y))
    (outer : List Frame) : handOver (inner ++ outer) x = handOver outer y := by
  induction inner generalizing x with
  | nil =>
    cases h
    rfl
  | cons f inner ih =>
    cases f with
    | list start items => cases h
    | quote start => exact ih (x := quotedForm start x) h

namespace Scanner

variable {s : Scanner} {x : Form} (outer : List Frame)

/-- The scanner with more frames open around everything. -/
def inside (s : Scanner) : Scanner :=
  { s with frames := s.frames ++ outer, fault := s.fault.map (Fault.inside outer) }

theorem inside_of_none (hf : s.fault = none) : s.inside outer = { s with frames := s.frames ++ outer } := by
  unfold inside
  rw [hf]
  rfl

theorem fault_inside_of_none (hf : s.fault = none) : (s.inside outer).fault = none := by
  rw [inside_of_none outer hf, hf]

theorem fault_inside_of_some {f : Fault} (hf : s.fault = some f) :
    (s.inside outer).fault = some (f.inside outer) := by
  rw [inside, hf]
  rfl

theorem fail_inside (s : Scanner) (offset : Nat) (cause : Cause) :
    (s.inside outer).fail offset cause = (s.fail offset cause).inside outer := rfl

/-- The scanner is in the middle of a form. -/
def Engaged (s : Scanner) : Prop := s.frames = [] → s.mode ≠ .blank ∧ s.mode ≠ .comment

theorem engaged_of_frames (h : s.frames ≠ []) : s.Engaged := fun h' => absurd h' h

/-- The form is taken by the scanner, or it is complete for the frames around. -/
theorem deliver_inside (hf : s.fault = none) (hd : s.done = []) (x : Form) :
    ((s.deliver x).done = [] ∧ (s.deliver x).frames ≠ [] ∧
      (s.inside outer).deliver x = (s.deliver x).inside outer) ∨
    ∃ y, (s.deliver x).done = [y] ∧ (s.deliver x).frames = [] ∧ y.span.stop = x.span.stop ∧
      (s.inside outer).deliver x = deliver { offset := s.offset, frames := outer } y := by
  rw [inside_of_none outer hf]
  cases h : handOver s.frames x with
  | mk frames top =>
    cases top with
    | none =>
      obtain ⟨houter, hne⟩ := handOver_append_of_none h outer
      have hs : s.deliver x = { s with mode := .blank, frames := frames } := by
        rw [deliver_eq, h]
        rfl
      have hf' : (s.deliver x).fault = none := by rw [hs, hf]
      left
      rw [inside_of_none outer hf', hs, deliver_eq, houter]
      exact ⟨hd, hne, rfl⟩
    | some y =>
      right
      obtain ⟨rfl, hstop⟩ := handOver_some h
      refine ⟨y, ?_, ?_, hstop, ?_⟩
      · rw [deliver_done, h, hd]
        rfl
      · rw [deliver_eq, h]
      · rw [deliver_eq, deliver_eq, handOver_append_of_some h outer, hd, hf]

/-- What a byte between forms can be. -/
theorem byte_cases (c : UInt8) : isSpace c = true ∨ c = byte ';' ∨ c = 0x28 ∨ c = 0x29 ∨ c = 0x27 ∨ c = 0x22 ∨
    isDelimiter c = false := by
  have hsemi : byte ';' = 0x3B := rfl
  grind [isDelimiter]

theorem enter_inside_of_ne (hf : s.fault = none) {c : UInt8} (hc : c ≠ 0x29) :
    (s.inside outer).enter c = (s.enter c).inside outer := by
  have hf' := fault_inside_of_none outer hf
  rcases byte_cases c with hsp | rfl | rfl | rfl | rfl | rfl | hw
  · rw [enter_space hsp, enter_space hsp]
  · rw [enter_comment hf, enter_comment hf']
    rfl
  · rw [enter_open hf, enter_open hf']
    rfl
  · exact absurd rfl hc
  · rw [enter_quote hf, enter_quote hf']
    rfl
  · rw [enter_string hf, enter_string hf']
    rfl
  · rw [enter_atom hf hw, enter_atom hf' hw]
    rfl

theorem enter_frames_of_ne (hf : s.fault = none) {c : UInt8} (hc : c ≠ 0x29) :
    s.frames <:+ (s.enter c).frames := by
  rcases byte_cases c with hsp | rfl | rfl | rfl | rfl | rfl | hw
  · rw [enter_space hsp]
  · rw [enter_comment hf]
  · rw [enter_open hf]
    exact List.suffix_cons ..
  · exact absurd rfl hc
  · rw [enter_quote hf]
    exact List.suffix_cons ..
  · rw [enter_string hf]
  · rw [enter_atom hf hw]

/-- A byte between the forms inside of a frame. -/
theorem enter_inside (hf : s.fault = none) (hd : s.done = []) (hfr : s.frames ≠ []) (c : UInt8) :
    ((s.enter c).done = [] ∧ (s.enter c).frames ≠ [] ∧ (s.inside outer).enter c = (s.enter c).inside outer) ∨
    ∃ y, (s.enter c).done = [y] ∧ y.span.stop = s.offset + 1 ∧
      (s.inside outer).enter c = deliver { offset := s.offset, frames := outer } y := by
  by_cases hc : c = 0x29
  · subst hc
    have hf' := fault_inside_of_none outer hf
    cases hcase : s.frames with
    | nil => exact absurd hcase hfr
    | cons f frames =>
      cases f with
      | list start items =>
        rw [enter_close hf hcase, enter_close hf' (congrArg (· ++ outer) hcase)]
        rcases deliver_inside outer (s := { s with frames := frames }) hf hd
          (.list ⟨start, s.offset + 1⟩ items.reverse) with hstays | ⟨y, hdone, -, hstop, heq⟩
        · exact .inl hstays
        · exact .inr ⟨y, hdone, hstop, heq⟩
      | quote start =>
        left
        rw [enter_close_of_ne hf (by simp [hcase]), enter_close_of_ne hf' (by simp [inside, hcase])]
        exact ⟨hd, hfr, fail_inside outer ..⟩
  · left
    refine ⟨(enter_done_of_ne hc).trans hd, fun hnil => hfr ?_, enter_inside_of_ne outer hf hc⟩
    exact List.suffix_nil.mp (hnil ▸ enter_frames_of_ne hf hc)

/-- The end of an atom. -/
theorem endAtom_inside (hf : s.fault = none) (hd : s.done = []) (start : Nat) (w : Bytes) :
    ((s.endAtom start w).done = [] ∧ ((s.endAtom start w).fault = none → (s.endAtom start w).frames ≠ []) ∧
      (s.inside outer).endAtom start w = (s.endAtom start w).inside outer) ∨
    ∃ y, (s.endAtom start w).done = [y] ∧ (s.endAtom start w).frames = [] ∧ y.span.stop = start + w.length ∧
      (s.inside outer).endAtom start w = deliver { offset := s.offset, frames := outer } y := by
  unfold endAtom
  cases ha : atom start w.reverse with
  | ok x =>
    rcases deliver_inside outer hf hd x with ⟨hdone, hfr, heq⟩ | ⟨y, hdone, hfr, hstop, heq⟩
    · exact .inl ⟨hdone, fun _ => hfr, heq⟩
    · refine .inr ⟨y, hdone, hfr, ?_, heq⟩
      rw [hstop, atom_span ha]
      simp [spanOf]
  | error i =>
    cases i with
    | zero => exact .inl ⟨hd, fun hnone => absurd hnone (Option.some_ne_none _), rfl⟩
    | succ i => exact .inl ⟨hd, fun hnone => absurd hnone (Option.some_ne_none _), rfl⟩

/-- The byte `c` leaves the form unfinished, whatever is around it. -/
structure StaysInside (s : Scanner) (c : UInt8) : Prop where
  done : (s.step c).done = []
  engaged : (s.step c).fault = none → (s.step c).Engaged
  step_eq : (s.inside outer).step c = (s.step c).inside outer

/-- The byte `c` completes the form `x`, which stops behind it, or before it if it is an atom. -/
structure Completes (s : Scanner) (c : UInt8) (x : Form) : Prop where
  done : (s.step c).done = [x]
  step_eq : x.span.stop = s.offset + 1 ∧
    (s.inside outer).step c = deliver { offset := s.offset + 1, frames := outer } x ∨
    x.span.stop = s.offset ∧ (s.inside outer).step c = (deliver { offset := s.offset, frames := outer } x).step c

theorem step_eq_read (hf : s.fault = none) (c : UInt8) : s.step c = (s.read c).moveTo (s.offset + 1) := by
  rw [step, if_neg (by simp [hf])]
  rfl

/-- A delimiter behind an atom ends it, and then does its own work. -/
theorem step_delimiter (hf : s.fault = none) {start : Nat} {w : Bytes} (hm : s.mode = .atom start w) {c : UInt8}
    (hc : isDelimiter c = true) : s.step c = ((s.endAtom start w).enter c).moveTo (s.offset + 1) := by
  rw [step_eq_read hf, read, hm]
  dsimp only
  rw [if_pos hc]

theorem step_inside_of_atom (hf : s.fault = none) (hd : s.done = []) (ha : s.Aligned) {start : Nat} {w : Bytes}
    (hm : s.mode = .atom start w) {c : UInt8} (hc : isDelimiter c = true) :
    StaysInside outer s c ∨ ∃ x, Completes outer s c x := by
  have hf' := fault_inside_of_none outer hf
  have hm' : (s.inside outer).mode = .atom start w := hm
  have hread := step_delimiter hf hm hc
  have hread' : (s.inside outer).step c = (((s.inside outer).endAtom start w).enter c).moveTo (s.offset + 1) :=
    step_delimiter hf' hm' hc
  rcases endAtom_inside outer hf hd start w with ⟨hdone, hfr, heq⟩ | ⟨y, hdone, hfr, hstop, heq⟩
  · cases hfault : (s.endAtom start w).fault with
    | some f =>
      have hstep : s.step c = (s.endAtom start w).moveTo (s.offset + 1) := by rw [hread, enter_of_fault hfault]
      have hfault' : ((s.inside outer).endAtom start w).fault = some (f.inside outer) := by
        rw [heq, fault_inside_of_some outer hfault]
      refine .inl ⟨by rw [hstep]; exact hdone, fun hnone => ?_, ?_⟩
      · rw [hstep] at hnone
        cases hfault.symm.trans hnone
      · rw [hread', enter_of_fault hfault', heq, hstep]
        rfl
    | none =>
      rw [heq] at hread'
      rcases enter_inside outer hfault hdone (hfr hfault) c with ⟨hdone', hfr', heq'⟩ | ⟨y, hdone', hstop, heq'⟩
      · refine .inl ⟨by rw [hread]; exact hdone', fun _ => ?_, ?_⟩
        · rw [hread]
          exact engaged_of_frames hfr'
        · rw [hread', heq', hread]
          rfl
      · rw [endAtom_offset] at hstop
        refine .inr ⟨y, by rw [hread]; exact hdone', .inl ⟨hstop, ?_⟩⟩
        rw [hread', heq', ← moveTo_deliver]
        rfl
  · refine .inr ⟨y, ?_, .inr ⟨hstop.trans (ha hf start w hm), ?_⟩⟩
    · rw [hread]
      exact (enter_done c hfr).trans hdone
    · have hsettle : (s.inside outer).settle = deliver { offset := s.offset, frames := outer } y := by
        rw [settle, hm', ← heq]
      rw [← hsettle]
      refine step_settle ?_ ?_ hc
      · rw [hsettle, deliver_fault]
      · rw [hsettle, deliver_mode]

theorem staysInside_of_read (hf : s.fault = none) {c : UInt8} (hdone : (s.read c).done = [])
    (he : (s.read c).Engaged) (hread : (s.inside outer).read c = (s.read c).inside outer) :
    StaysInside outer s c := by
  have hf' := fault_inside_of_none outer hf
  have hstep := step_eq_read hf c
  refine ⟨by rw [hstep]; exact hdone, fun _ => by rw [hstep]; exact he, ?_⟩
  rw [hstep, step_eq_read hf', hread]
  rfl

theorem completes_of_read (hf : s.fault = none) {c : UInt8} (hdone : (s.read c).done = [x])
    (hstop : x.span.stop = s.offset + 1)
    (hread : (s.inside outer).read c = deliver { offset := s.offset, frames := outer } x) :
    Completes outer s c x := by
  have hf' := fault_inside_of_none outer hf
  refine ⟨by rw [step_eq_read hf]; exact hdone, .inl ⟨hstop, ?_⟩⟩
  rw [step_eq_read hf', hread, ← moveTo_deliver]
  rfl

/-- **A byte in the middle of a form** does what it does without the frames around, or it completes the form for
them. -/
theorem step_inside (hf : s.fault = none) (hd : s.done = []) (ha : s.Aligned) (he : s.Engaged) (c : UInt8) :
    StaysInside outer s c ∨ ∃ x, Completes outer s c x := by
  have hstays := staysInside_of_read outer hf (c := c)
  have hcompletes := fun x => completes_of_read outer hf (c := c) (x := x)
  have hmode : (s.inside outer).mode = s.mode := rfl
  unfold read at hstays hcompletes
  rw [hmode] at hstays hcompletes
  cases hm : s.mode with
  | blank =>
    have hfr : s.frames ≠ [] := fun hnil => (he hnil).1 hm
    rw [hm] at hstays hcompletes
    rcases enter_inside outer hf hd hfr c with ⟨hdone, hfr', heq⟩ | ⟨y, hdone, hstop, heq⟩
    · exact .inl (hstays hdone (engaged_of_frames hfr') heq)
    · exact .inr ⟨y, hcompletes y hdone hstop heq⟩
  | comment =>
    have hfr : s.frames ≠ [] := fun hnil => (he hnil).2 hm
    rw [hm] at hstays
    dsimp only at hstays
    left
    split at hstays
    · exact hstays hd (engaged_of_frames hfr) rfl
    · exact hstays hd he rfl
  | atom start w =>
    by_cases hc : isDelimiter c = true
    · exact step_inside_of_atom outer hf hd ha hm hc
    · rw [hm] at hstays
      dsimp only at hstays
      rw [if_neg hc, if_neg hc] at hstays
      exact .inl (hstays hd (fun _ => ⟨Mode.noConfusion, Mode.noConfusion⟩) rfl)
  | string start w =>
    rw [hm] at hstays hcompletes
    dsimp only at hstays hcompletes
    split at hstays
    · next hc =>
      rw [if_pos hc, if_pos hc] at hcompletes
      rcases deliver_inside outer hf hd (.string ⟨start, s.offset + 1⟩ w.reverse) with
        ⟨hdone, hfr, heq⟩ | ⟨y, hdone, -, hstop, heq⟩
      · exact .inl (hstays hdone (engaged_of_frames hfr) heq)
      · exact .inr ⟨y, hcompletes y hdone hstop heq⟩
    · split at hstays
      · exact .inl (hstays hd (fun _ => ⟨Mode.noConfusion, Mode.noConfusion⟩) rfl)
      · exact .inl (hstays hd (fun _ => ⟨Mode.noConfusion, Mode.noConfusion⟩) rfl)
  | escape start w =>
    rw [hm] at hstays
    exact .inl (hstays hd (fun _ => ⟨Mode.noConfusion, Mode.noConfusion⟩) rfl)

/-! ## Going on -/

/-- Behind a complete form the frames around it take it, or it is what was wanted. -/
def goOn (x : Form) (r : Bytes) : Except Fault (Form × Bytes) :=
  match handOver outer x with
  | (frames, none) => next { offset := x.span.stop, frames := frames } r
  | (_, some y) => .ok (y, r)

/-- What reading a form alone means for the frames around it. -/
def carryOn : Except Fault (Form × Bytes) → Except Fault (Form × Bytes)
  | .ok (x, r) => goOn outer x r
  | .error f => .error (f.inside outer)

section Taken

variable {outer} {frames : List Frame} {y : Form}

theorem goOn_of_none (h : handOver outer x = (frames, none)) (r : Bytes) :
    goOn outer x r = next { offset := x.span.stop, frames := frames } r := by
  rw [goOn, h]

theorem goOn_of_some (h : handOver outer x = (frames, some y)) (r : Bytes) : goOn outer x r = .ok (y, r) := by
  rw [goOn, h]

theorem deliver_of_none (h : handOver outer x = (frames, none)) (i : Nat) :
    deliver { offset := i, frames := outer } x = { offset := i, frames := frames } := by
  rw [deliver_eq, h]
  rfl

theorem deliver_of_some (h : handOver outer x = (frames, some y)) (i : Nat) :
    deliver { offset := i, frames := outer } x = { offset := i, done := [y] } := by
  obtain ⟨rfl, -⟩ := handOver_some h
  rw [deliver_eq, h]
  rfl

end Taken

theorem finish_of_open (hf : s.fault = none) (hm : s.mode = .blank ∨ s.mode = .comment) (hfr : s.frames ≠ []) :
    s.finish = s.fail s.offset .endOfInput := by
  unfold finish
  rw [if_neg (by simp [hf])]
  rcases hm with hm | hm
  · rw [hm]
    exact if_neg (by simpa using hfr)
  · rw [hm]
    exact if_neg (by simpa using hfr)

theorem finish_of_string (hf : s.fault = none) {start : Nat} {w : Bytes}
    (hm : s.mode = .string start w ∨ s.mode = .escape start w) : s.finish = s.fail s.offset .unterminated := by
  unfold finish
  rw [if_neg (by simp [hf])]
  rcases hm with hm | hm
  · rw [hm]
  · rw [hm]

theorem finish_of_atom (hf : s.fault = none) {start : Nat} {w : Bytes} (hm : s.mode = .atom start w) :
    s.finish = if (s.endAtom start w).fault.isSome || (s.endAtom start w).frames.isEmpty then s.endAtom start w
      else (s.endAtom start w).fail (s.endAtom start w).offset .endOfInput := by
  unfold finish
  rw [if_neg (by simp [hf]), hm]

/-- The end of the text in the middle of an atom. -/
theorem finish_inside_of_atom (hf : s.fault = none) (hd : s.done = []) (ha : s.Aligned) {start : Nat} {w : Bytes}
    (hm : s.mode = .atom start w) :
    (s.finish.done = [] ∧ s.finish.fault ≠ none ∧ (s.inside outer).finish = s.finish.inside outer) ∨
    ∃ x, s.finish.done = [x] ∧ x.span.stop = s.offset ∧
      (s.inside outer).finish = (deliver { offset := s.offset, frames := outer } x).finish := by
  have hf' := fault_inside_of_none outer hf
  have hm' : (s.inside outer).mode = .atom start w := hm
  have hfinish := finish_of_atom hf hm
  have hfinish' := finish_of_atom hf' hm'
  rcases endAtom_inside outer hf hd start w with ⟨hdone, hfr, heq⟩ | ⟨y, hdone, hfr, hstop, heq⟩
  · left
    rw [heq] at hfinish'
    cases hfault : (s.endAtom start w).fault with
    | some f =>
      rw [if_pos (by simp [hfault])] at hfinish
      rw [if_pos (by simp [inside, hfault])] at hfinish'
      rw [hfinish, hfinish', hfault]
      exact ⟨hdone, Option.some_ne_none _, rfl⟩
    | none =>
      have hne := hfr hfault
      rw [if_neg (by simp [hfault, hne])] at hfinish
      rw [if_neg (by simp [inside, hfault, hne])] at hfinish'
      rw [hfinish, hfinish']
      exact ⟨hdone, Option.some_ne_none _, rfl⟩
  · right
    rw [if_pos (by simp [hfr])] at hfinish
    refine ⟨y, by rw [hfinish]; exact hdone, hstop.trans (ha hf start w hm), ?_⟩
    have hsettle : (s.inside outer).settle = deliver { offset := s.offset, frames := outer } y := by
      rw [settle, hm', ← heq]
    rw [← hsettle]
    exact finish_settle (i := s.offset) (hsettle ▸ ⟨deliver_fault _ _, deliver_mode _ _, by rw [deliver_eq]⟩)

/-- The end of the text in the middle of a form. -/
theorem finish_inside (hf : s.fault = none) (hd : s.done = []) (ha : s.Aligned) (he : s.Engaged) :
    (s.finish.done = [] ∧ s.finish.fault ≠ none ∧ (s.inside outer).finish = s.finish.inside outer) ∨
    ∃ x, s.finish.done = [x] ∧ x.span.stop = s.offset ∧
      (s.inside outer).finish = (deliver { offset := s.offset, frames := outer } x).finish := by
  have hf' := fault_inside_of_none outer hf
  have hopen : s.mode = .blank ∨ s.mode = .comment → s.finish = s.fail s.offset .endOfInput ∧
      (s.inside outer).finish = (s.inside outer).fail s.offset .endOfInput := by
    intro hm
    have hfr : s.frames ≠ [] := fun hnil => hm.elim (he hnil).1 (he hnil).2
    exact ⟨finish_of_open hf hm hfr, finish_of_open hf' hm (List.append_ne_nil_of_left_ne_nil hfr outer)⟩
  cases hm : s.mode with
  | blank =>
    obtain ⟨h, h'⟩ := hopen (.inl hm)
    rw [h, h']
    exact .inl ⟨hd, Option.some_ne_none _, rfl⟩
  | comment =>
    obtain ⟨h, h'⟩ := hopen (.inr hm)
    rw [h, h']
    exact .inl ⟨hd, Option.some_ne_none _, rfl⟩
  | atom start w => exact finish_inside_of_atom outer hf hd ha hm
  | string start w =>
    rw [finish_of_string hf (.inl hm), finish_of_string hf' (.inl hm)]
    exact .inl ⟨hd, Option.some_ne_none _, rfl⟩
  | escape start w =>
    rw [finish_of_string hf (.inr hm), finish_of_string hf' (.inr hm)]
    exact .inl ⟨hd, Option.some_ne_none _, rfl⟩

/-! ## Step by step -/

theorem next_of_step_done {c : UInt8} {l : List Form} (h : (s.step c).done = x :: l) (t : Bytes) :
    s.next (c :: t) = .ok (x, if x.span.stop ≤ s.offset then c :: t else t) := by
  rw [next, h]

theorem next_of_step {u : Scanner} {c : UInt8} (h : s.step c = u) (hf : u.fault = none) (hd : u.done = [])
    (t : Bytes) : s.next (c :: t) = u.next t := by
  rw [next, h, hf, hd]

/-- A byte completes a form, is a fault or leaves the form to the rest of the text. -/
theorem next_cons_cases (s : Scanner) (c : UInt8) (t : Bytes) :
    (∃ x l, (s.step c).done = x :: l ∧ s.next (c :: t) = .ok (x, if x.span.stop ≤ s.offset then c :: t else t)) ∨
    ((s.step c).done = [] ∧ ∃ f, (s.step c).fault = some f ∧ s.next (c :: t) = .error f) ∨
    ((s.step c).done = [] ∧ (s.step c).fault = none ∧ s.next (c :: t) = (s.step c).next t) := by
  cases hdone : (s.step c).done with
  | cons x l => exact .inl ⟨x, l, rfl, next_of_step_done hdone t⟩
  | nil =>
    cases hfault : (s.step c).fault with
    | some f =>
      refine .inr (.inl ⟨rfl, f, rfl, ?_⟩)
      rw [next, hdone, hfault]
    | none => exact .inr (.inr ⟨rfl, rfl, next_of_step rfl hfault hdone t⟩)

/-- The end of the text completes a form, is a fault or comes before any form. -/
theorem next_nil_cases (s : Scanner) :
    (∃ x l, s.finish.done = x :: l ∧ s.next [] = .ok (x, [])) ∨
    (s.finish.done = [] ∧ ∃ f, s.finish.fault = some f ∧ s.next [] = .error f) ∨
    (s.finish.done = [] ∧ s.finish.fault = none ∧ s.next [] = .error ⟨s.offset, .endOfInput, []⟩) := by
  cases hdone : s.finish.done with
  | cons x l =>
    refine .inl ⟨x, l, rfl, ?_⟩
    rw [next, hdone]
  | nil =>
    right
    cases hfault : s.finish.fault with
    | some f =>
      refine .inl ⟨rfl, f, rfl, ?_⟩
      rw [next, hdone, hfault]
    | none =>
      refine .inr ⟨rfl, rfl, ?_⟩
      rw [next, hdone, hfault, finish_offset]

/-- **A form inside of others is read as it is alone**, and then the frames around it go on. -/
theorem next_inside (hf : s.fault = none) (hd : s.done = []) (ha : s.Aligned) (he : s.Engaged) (t : Bytes) :
    (s.inside outer).next t = carryOn outer (s.next t) := by
  induction t generalizing s with
  | nil =>
    rcases finish_inside outer hf hd ha he with ⟨hdone, hfault, heq⟩ | ⟨x, hdone, hstop, heq⟩
    · obtain ⟨f, hfault⟩ := Option.ne_none_iff_exists'.mp hfault
      have hdone' : (s.finish.inside outer).done = [] := hdone
      rw [next, next, heq, hdone, hdone', hfault, fault_inside_of_some outer hfault]
      rfl
    · have hnext : s.next [] = .ok (x, []) := by rw [next, hdone]
      rw [hnext]
      show _ = goOn outer x _
      cases htop : handOver outer x with
      | mk frames top =>
        cases top with
        | none => rw [goOn_of_none htop, next, next, heq, deliver_of_none htop, hstop]
        | some y =>
          rw [goOn_of_some htop, next, heq, deliver_of_some htop]
          rfl
  | cons c t ih =>
    rcases step_inside outer hf hd ha he c with ⟨hdone, hengaged, heq⟩ | ⟨x, hdone, heq⟩
    · rw [next, next, heq]
      have hdone' : ((s.step c).inside outer).done = [] := hdone
      rw [hdone, hdone']
      cases hfault : (s.step c).fault with
      | some f =>
        rw [fault_inside_of_some outer hfault]
        rfl
      | none =>
        rw [fault_inside_of_none outer hfault]
        exact ih hfault hdone (aligned_step ha c) (hengaged hfault)
    · rw [next_of_step_done hdone]
      show _ = goOn outer x _
      have hoffset : (s.inside outer).offset = s.offset := rfl
      cases htop : handOver outer x with
      | mk frames top =>
        cases top with
        | none =>
          rw [goOn_of_none htop]
          rcases heq with ⟨hstop, heq⟩ | ⟨hstop, heq⟩
          · rw [next, heq, deliver_of_none htop, hstop, if_neg (by omega)]
          · rw [next, heq, deliver_of_none htop, hstop, if_pos (Nat.le_refl _), next, hoffset]
        | some y =>
          rw [goOn_of_some htop]
          have hy := (handOver_some htop).2
          rcases heq with ⟨hstop, heq⟩ | ⟨hstop, heq⟩
          · rw [next_of_step_done (by rw [heq, deliver_of_some htop]), hy, hoffset]
          · have hstep : (step { offset := s.offset, done := [y] } c).done = [y] := by
              rw [step_of_blank rfl rfl]
              exact enter_done c rfl
            rw [next_of_step_done (by rw [heq, deliver_of_some htop, hstep]), hy, hoffset]

/-! ## Between forms -/

/-- The mode of a scanner outside of forms. -/
def outsideMode (inComment : Bool) : Mode := if inComment then .comment else .blank

/-- What a byte does outside of forms, if it starts none: the scanner moves on, and a comment starts or ends. -/
theorem step_outside (i : Nat) (inComment : Bool) {c : UInt8} {t : Bytes}
    (hskip : inComment = false → SpaceSet.all.skipFrom false (c :: t) ≠ c :: t) : ∃ more : Bool,
    SpaceSet.all.skipFrom inComment (c :: t) = SpaceSet.all.skipFrom more t ∧
    step { offset := i, mode := outsideMode inComment, frames := outer } c =
      { offset := i + 1, mode := outsideMode more, frames := outer } := by
  have hstep := step_eq_read (s := { offset := i, mode := outsideMode inComment, frames := outer }) rfl c
  rw [hstep, SpaceSet.skipFrom]
  cases inComment with
  | true =>
    by_cases hc : c = byte '\n'
    · subst hc
      exact ⟨false, rfl, rfl⟩
    · have hne : (c == byte '\n') = false := by simpa using hc
      refine ⟨true, if_pos (by simp [hc]), ?_⟩
      rw [read]
      dsimp only [outsideMode]
      rw [if_pos rfl]
      dsimp only
      rw [hne]
      rfl
  | false =>
    replace hskip := hskip rfl
    rw [SpaceSet.skipFrom, if_neg (by simp)] at hskip
    rw [if_neg (by simp)]
    by_cases hsp : isSpace c = true
    · refine ⟨false, if_pos hsp, ?_⟩
      exact congrArg (moveTo · (i + 1)) (enter_space hsp)
    have hsp' : ¬ SpaceSet.all.contains c = true := hsp
    rw [if_neg hsp'] at hskip ⊢
    by_cases hsemi : c = byte ';'
    · subst hsemi
      exact ⟨true, rfl, congrArg (moveTo · (i + 1)) (enter_comment rfl)⟩
    · rw [if_neg (by simpa using hsemi)] at hskip
      exact absurd rfl hskip

/-- Blanks move a scanner that is between forms, or in a comment, and do nothing else to it. -/
theorem next_skipFrom (i : Nat) (inComment : Bool) (t : Bytes) :
    next { offset := i, mode := outsideMode inComment, frames := outer } t =
      next { offset := i + (t.length - (SpaceSet.all.skipFrom inComment t).length), frames := outer }
        (SpaceSet.all.skipFrom inComment t) := by
  induction t generalizing i inComment with
  | nil => cases inComment <;> cases outer <;> rfl
  | cons c t ih =>
    by_cases hstay : inComment = false ∧ SpaceSet.all.skipFrom false (c :: t) = c :: t
    · obtain ⟨rfl, hskip⟩ := hstay
      rw [hskip, Nat.sub_self]
      rfl
    · obtain ⟨more, hskip, hstep⟩ := step_outside outer i inComment (fun hf hs => hstay ⟨hf, hs⟩)
      have hle := SpaceSet.skipFrom_length_le SpaceSet.all more t
      have hoffset : i + 1 + (t.length - (SpaceSet.all.skipFrom more t).length) =
          i + ((c :: t).length - (SpaceSet.all.skipFrom more t).length) := by
        rw [List.length_cons]
        omega
      rw [next_of_step hstep rfl rfl, ih, hskip, hoffset]

theorem next_skipBlanks (i : Nat) (t : Bytes) :
    next { offset := i, frames := outer } t =
      next { offset := i + (t.length - (SpaceSet.all.skipBlanks t).length), frames := outer }
        (SpaceSet.all.skipBlanks t) :=
  next_skipFrom outer i false t

/-- A byte that starts a form, as it is neither blank nor a closing bracket. -/
def Starts (c : UInt8) : Prop := isSpace c = false ∧ c ≠ byte ';' ∧ c ≠ 0x29

theorem step_starts (i : Nat) {c : UInt8} (hc : Starts c) :
    (step { offset := i } c).done = [] ∧ (step { offset := i } c).fault = none ∧
    (step { offset := i } c).Engaged := by
  obtain ⟨hsp, hsemi, hclose⟩ := hc
  rw [step_of_blank rfl rfl]
  rcases byte_cases c with h | rfl | rfl | rfl | rfl | rfl | hw
  · rw [h] at hsp
    cases hsp
  · exact absurd rfl hsemi
  · rw [enter_open rfl]
    exact ⟨rfl, rfl, engaged_of_frames (List.cons_ne_nil _ _)⟩
  · exact absurd rfl hclose
  · rw [enter_quote rfl]
    exact ⟨rfl, rfl, engaged_of_frames (List.cons_ne_nil _ _)⟩
  · rw [enter_string rfl]
    exact ⟨rfl, rfl, fun _ => ⟨Mode.noConfusion, Mode.noConfusion⟩⟩
  · rw [enter_atom rfl hw]
    exact ⟨rfl, rfl, fun _ => ⟨Mode.noConfusion, Mode.noConfusion⟩⟩

/-- **A form that starts inside of frames is read as it is alone.** -/
theorem next_starts (i : Nat) {c : UInt8} (hc : Starts c) (t : Bytes) :
    next { offset := i, frames := outer } (c :: t) = carryOn outer (next { offset := i } (c :: t)) := by
  obtain ⟨hdone, hfault, hengaged⟩ := step_starts i hc
  have haligned : (step { offset := i } c).Aligned := aligned_step (by simp [Aligned]) c
  have hstep : step { offset := i, frames := outer } c = (step { offset := i } c).inside outer := by
    rw [step_of_blank rfl rfl, step_of_blank rfl rfl]
    have henter := enter_inside_of_ne outer (s := { offset := i }) rfl hc.2.2
    exact congrArg (moveTo · (i + 1)) henter
  have hdone' : ((step { offset := i } c).inside outer).done = [] := hdone
  rw [next, next, hstep, hdone, hdone', hfault, fault_inside_of_none outer hfault]
  exact next_inside outer hfault hdone haligned hengaged t

end Scanner

end RegisterMachine
