import RegisterMachine.Proofs.Enclosure

/-!
# The kinds of forms

A form is a list, a quote, a string or an atom, and its first byte tells which of them.  So reading a form is a
choice between the four, and the errors of a form are those of the one alternative that gets past its first byte.

* `Scanner.next_quote`, `Scanner.next_list_error`: what is read inside of a quote and of a list.
* `Scanner.Past.le_of_next`: an error does not lie before the place where reading started.
* `Grammar.read_form_eq`: reading a form is a choice.
-/

namespace RegisterMachine

open Syntax

/-! ## Errors inside of frames -/

/-- The text has not ended outside of all frames. -/
def Fault.Framed (f : Fault) : Prop := f.cause = .endOfInput → f.frames ≠ []

/-- The frames around an error enclose it. -/
theorem Fault.error_inside {f : Fault} (h : f.Framed) (outer : List Frame) :
    (f.inside outer).error = outer.foldl Frame.enclose f.error := by
  obtain ⟨offset, cause, frames⟩ := f
  cases cause with
  | endOfInput =>
    cases frames with
    | nil => exact absurd rfl (h rfl)
    | cons fr frames =>
      cases fr with
      | list start items => exact List.foldl_append
      | quote start => exact List.foldl_append
  | unbalanced | unterminated | badRune | noForm => exact List.foldl_append

theorem Fault.error_inside_quote (f : Fault) (start : Nat) :
    (f.inside [.quote start]).error = .within .quote (.quoted f.error) := by
  by_cases h : f.Framed
  · exact error_inside h [.quote start]
  · obtain ⟨offset, cause, frames⟩ := f
    obtain ⟨hcause, hframes⟩ := Classical.not_imp.mp h
    obtain rfl : cause = .endOfInput := hcause
    obtain rfl : frames = [] := not_not.mp hframes
    rfl

theorem Fault.error_inside_list {f : Fault} (h : f.Framed) (start : Nat) (items : List Form) :
    (f.inside [.list start items]).error = .within .list (.item items.length f.error) :=
  error_inside h [.list start items]

namespace Scanner

variable {s : Scanner} {t r : Bytes} {x : Form} {f : Fault}

/-! ## Where errors come from -/

theorem next_cons_error {c : UInt8} (h : s.next (c :: t) = .error f) : (s.step c).done = [] ∧
    ((s.step c).fault = some f ∨ (s.step c).fault = none ∧ (s.step c).next t = .error f) := by
  rcases next_cons_cases s c t with ⟨y, l, -, heq⟩ | ⟨hdone, g, hfault, heq⟩ | ⟨hdone, hfault, heq⟩
  · cases heq.symm.trans h
  · cases heq.symm.trans h
    exact ⟨hdone, .inl hfault⟩
  · exact ⟨hdone, .inr ⟨hfault, heq.symm.trans h⟩⟩

theorem next_nil_error (h : s.next [] = .error f) :
    s.finish.done = [] ∧ (s.finish.fault = some f ∨ s.finish.fault = none ∧ f.offset = s.offset) := by
  rcases next_nil_cases s with ⟨y, l, -, heq⟩ | ⟨hdone, g, hfault, heq⟩ | ⟨hdone, hfault, heq⟩
  · cases heq.symm.trans h
  · cases heq.symm.trans h
    exact ⟨hdone, .inl hfault⟩
  · cases heq.symm.trans h
    exact ⟨hdone, .inr ⟨hfault, rfl⟩⟩

theorem Engaged.step (hf : s.fault = none) (hd : s.done = []) (ha : s.Aligned) (he : s.Engaged) {c : UInt8}
    (hdone : (s.step c).done = []) (hfault : (s.step c).fault = none) : (s.step c).Engaged := by
  rcases step_inside [] hf hd ha he c with hstays | ⟨x, hx⟩
  · exact hstays.engaged hfault
  · cases hdone.symm.trans hx.done

theorem Engaged.finish (hf : s.fault = none) (hd : s.done = []) (ha : s.Aligned) (he : s.Engaged)
    (hdone : s.finish.done = []) : s.finish.fault ≠ none := by
  rcases finish_inside [] hf hd ha he with ⟨-, hfault, -⟩ | ⟨x, hx, -⟩
  · exact hfault
  · cases hdone.symm.trans hx

theorem framed_of_finish (hf : s.fault = none) (he : s.Engaged) (h : s.finish.fault = some f) : f.Framed := by
  intro hcause
  have hopen : s.mode = .blank ∨ s.mode = .comment → f.frames ≠ [] := by
    intro hm
    have hfr : s.frames ≠ [] := fun hnil => hm.elim (he hnil).1 (he hnil).2
    rw [finish_of_open hf hm hfr] at h
    cases h
    exact hfr
  cases hm : s.mode with
  | blank => exact hopen (.inl hm)
  | comment => exact hopen (.inr hm)
  | string start w =>
    rw [finish_of_string hf (.inl hm)] at h
    cases h
    cases hcause
  | escape start w =>
    rw [finish_of_string hf (.inr hm)] at h
    cases h
    cases hcause
  | atom start w =>
    rw [finish_of_atom hf hm] at h
    split at h
    · have := (endAtom_fault hf h).1
      rw [hcause] at this
      cases this
    · next hne =>
      cases h
      simp only [Bool.or_eq_true, List.isEmpty_iff, not_or] at hne
      exact hne.2

/-- In the middle of a form the text ends inside of a frame, an atom or a string. -/
theorem framed_of_next (hf : s.fault = none) (hd : s.done = []) (ha : s.Aligned) (he : s.Engaged)
    (h : s.next t = .error f) : f.Framed := by
  induction t generalizing s with
  | nil =>
    obtain ⟨hdone, hfault | ⟨hnone, -⟩⟩ := next_nil_error h
    · exact framed_of_finish hf he hfault
    · exact absurd hnone (he.finish hf hd ha hdone)
  | cons c t ih =>
    obtain ⟨hdone, hfault | ⟨hnone, hnext⟩⟩ := next_cons_error h
    · rcases step_fault ha hfault with hs | ⟨-, hclosed, -⟩
      · rw [hf] at hs
        cases hs
      · intro hcause
        rw [hcause] at hclosed
        cases hclosed
    · exact ih hnone hdone (aligned_step ha c) (he.step hf hd ha hdone hnone) hnext

/-- What the scanner is in the middle of does not start before `n`. -/
structure Past (n : Nat) (s : Scanner) : Prop where
  offset : n ≤ s.offset
  atom : ∀ start w, s.mode = .atom start w → n ≤ start

theorem Past.endAtom_fault {n : Nat} (h : s.Past n) (hf : s.fault = none) {start : Nat} {w : Bytes}
    (hm : s.mode = .atom start w) (hfault : (s.endAtom start w).fault = some f) : n ≤ f.offset := by
  have hstart := h.atom start w hm
  unfold endAtom at hfault
  split at hfault
  · rw [deliver_fault, hf] at hfault
    cases hfault
  · cases hfault
    exact hstart
  · cases hfault
    exact Nat.le_add_right_of_le hstart

theorem Past.read {n : Nat} (h : s.Past n) (hf : s.fault = none) (c : UInt8) :
    (∀ f, (s.read c).fault = some f → n ≤ f.offset) ∧
    ((s.read c).fault = none → ∀ start w, (s.read c).mode = .atom start w → n ≤ start) := by
  unfold Scanner.read
  cases hm : s.mode with
  | blank =>
    refine ⟨fun f hfault => ?_, fun hnone start w hmode => ?_⟩
    · rw [(enter_fault hf hfault).2]
      exact h.offset
    · rw [(enter_mode (fun _ => hm) hnone hmode).1]
      exact h.offset
  | comment =>
    refine ⟨fun f hfault => ?_, fun _ start w hmode => ?_⟩
    · dsimp only at hfault
      split at hfault
      · cases hf.symm.trans hfault
      · cases hf.symm.trans hfault
    · dsimp only at hmode
      split at hmode
      · cases hmode
      · cases hm.symm.trans hmode
  | atom start w =>
    dsimp only
    by_cases hc : isDelimiter c = true
    · rw [if_pos hc]
      cases he : (s.endAtom start w).fault with
      | some g =>
        rw [enter_of_fault he, he]
        refine ⟨fun f hfault => ?_, fun hnone => absurd hnone (Option.some_ne_none g)⟩
        cases hfault
        exact h.endAtom_fault hf hm he
      | none =>
        refine ⟨fun f hfault => ?_, fun hnone start' w' hmode => ?_⟩
        · rw [(enter_fault he hfault).2, endAtom_offset]
          exact h.offset
        · rw [(enter_mode (endAtom_mode start w) hnone hmode).1, endAtom_offset]
          exact h.offset
    · rw [if_neg hc]
      refine ⟨fun f hfault => (Option.some_ne_none f (hfault.symm.trans hf)).elim, fun _ start' w' hmode => ?_⟩
      cases hmode
      exact h.atom start w hm
  | string start w =>
    refine ⟨fun f hfault => ?_, fun _ start' w' hmode => ?_⟩
    · dsimp only at hfault
      split at hfault
      · rw [deliver_fault, hf] at hfault
        cases hfault
      · split at hfault
        · cases hf.symm.trans hfault
        · cases hf.symm.trans hfault
    · dsimp only at hmode
      split at hmode
      · cases (deliver_mode ..).symm.trans hmode
      · split at hmode
        · cases hmode
        · cases hmode
  | escape start w =>
    refine ⟨fun f hfault => (Option.some_ne_none f (hfault.symm.trans hf)).elim, fun _ start' w' hmode => ?_⟩
    cases hmode

theorem Past.finish {n : Nat} (h : s.Past n) (hf : s.fault = none) (hfault : s.finish.fault = some f) :
    n ≤ f.offset := by
  rcases finish_fault hf hfault with ⟨start, w, hm, heq⟩ | ⟨-, hoffset, -⟩
  · rw [heq] at hfault
    exact h.endAtom_fault hf hm hfault
  · rw [hoffset]
    exact h.offset

/-- **An error does not lie before what the scanner was in the middle of.** -/
theorem Past.le_of_next {n : Nat} (hp : s.Past n) (hf : s.fault = none) (h : s.next t = .error f) :
    n ≤ f.offset := by
  induction t generalizing s with
  | nil =>
    obtain ⟨-, hfault | ⟨-, hoffset⟩⟩ := next_nil_error h
    · exact hp.finish hf hfault
    · rw [hoffset]
      exact hp.offset
  | cons c t ih =>
    have hstep := step_eq_read hf c
    obtain ⟨-, hfault | ⟨hnone, hnext⟩⟩ := next_cons_error h
    · rw [hstep] at hfault
      exact (hp.read hf c).1 f hfault
    · refine ih ⟨?_, ?_⟩ hnone hnext
      · rw [step_offset hf]
        exact Nat.le_succ_of_le hp.offset
      · rw [hstep] at hnone ⊢
        exact (hp.read hf c).2 hnone

/-! ## Inside of quotes and lists -/

/-- Behind blanks the text ends, a bracket is closed or a form starts. -/
theorem skipBlanks_cases (t : Bytes) :
    SpaceSet.all.skipBlanks t = [] ∨ (∃ r, SpaceSet.all.skipBlanks t = 0x29 :: r) ∨
    ∃ c r, SpaceSet.all.skipBlanks t = c :: r ∧ Starts c := by
  have hsolid : Solid (SpaceSet.all.skipBlanks t) := (blanks_skipBlanks t).skipBlanks_eq.symm
  cases hs : SpaceSet.all.skipBlanks t with
  | nil => exact .inl rfl
  | cons c r =>
    by_cases hc : c = 0x29
    · exact .inr (.inl ⟨r, by rw [hc]⟩)
    rw [hs] at hsolid
    have hmore : ∀ more : Bool, SpaceSet.all.skipFrom more r ≠ c :: r := by
      intro more heq
      have hle := SpaceSet.skipFrom_length_le SpaceSet.all more r
      rw [heq] at hle
      exact Nat.not_succ_le_self _ hle
    refine .inr (.inr ⟨c, r, rfl, ?_, ?_, hc⟩)
    · refine Bool.eq_false_iff.mpr fun hsp => hmore false ?_
      rw [← hsolid, skipBlanks_space hsp]
      rfl
    · rintro rfl
      exact hmore true hsolid

/-- Inside of a quote the next form is read, whatever it is. -/
theorem next_quote (i start : Nat) (t : Bytes) :
    next { offset := i, frames := [.quote start] } t = carryOn [.quote start] (next { offset := i } t) := by
  rw [next_skipBlanks [.quote start] i t, next_skipBlanks [] i t]
  generalize i + (t.length - (SpaceSet.all.skipBlanks t).length) = j
  rcases skipBlanks_cases t with hs | ⟨r, hs⟩ | ⟨c, r, hs, hc⟩
  · rw [hs]
    rfl
  · rw [hs]
    rfl
  · rw [hs]
    exact next_starts [.quote start] j hc r

/-- The errors inside of a quote name it. -/
theorem next_quote_error {i start : Nat} (h : next { offset := i, frames := [.quote start] } t = .error f) :
    ∃ e, f.error = .within .quote e := by
  rw [next_quote] at h
  cases hnext : next { offset := i } t with
  | ok p =>
    rw [hnext] at h
    cases h
  | error g =>
    rw [hnext] at h
    cases h
    exact ⟨_, g.error_inside_quote start⟩

theorem next_list_end (i start : Nat) (items : List Form) :
    next { offset := i, frames := [.list start items] } [] = .error ⟨i, .endOfInput, [.list start items]⟩ := rfl

theorem next_list_close (i start : Nat) (items : List Form) (r : Bytes) :
    next { offset := i, frames := [.list start items] } (0x29 :: r) =
      .ok (.list ⟨start, i + 1⟩ items.reverse, r) := by
  have hstep : step { offset := i, frames := [.list start items] } 0x29 =
      { offset := i + 1, done := [.list ⟨start, i + 1⟩ items.reverse] } := by
    rw [step_of_blank rfl rfl, enter_close rfl rfl]
    rfl
  rw [next, hstep]
  exact congrArg (fun rest => Except.ok (_, rest)) (if_neg (Nat.not_succ_le_self i))

theorem framed_of_starts {i : Nat} {c : UInt8} (hc : Starts c) (h : next { offset := i } (c :: t) = .error f) :
    f.Framed := by
  obtain ⟨hdone, hfault, hengaged⟩ := step_starts i hc
  have haligned : (step { offset := i } c).Aligned := aligned_step (by simp [Aligned]) c
  obtain ⟨-, hf | ⟨-, hnext⟩⟩ := next_cons_error h
  · cases hfault.symm.trans hf
  · exact framed_of_next hfault hdone haligned hengaged hnext

/-- The errors inside of a list name it. -/
theorem next_list_error {i start : Nat} {items : List Form}
    (h : next { offset := i, frames := [.list start items] } t = .error f) : ∃ e, f.error = .within .list e := by
  induction hn : t.length using Nat.strongRecOn generalizing t i items with
  | ind n ih =>
    rw [next_skipBlanks] at h
    have hle := SpaceSet.skipBlanks_length_le SpaceSet.all t
    generalize i + (t.length - (SpaceSet.all.skipBlanks t).length) = j at h
    rcases skipBlanks_cases t with hs | ⟨r, hs⟩ | ⟨c, r, hs, hc⟩
    · rw [hs, next_list_end] at h
      cases h
      exact ⟨_, rfl⟩
    · rw [hs, next_list_close] at h
      cases h
    · rw [hs, next_starts _ j hc r] at h
      cases hnext : next { offset := j } (c :: r) with
      | error g =>
        rw [hnext] at h
        cases h
        exact ⟨_, Fault.error_inside_list (framed_of_starts hc hnext) start items⟩
      | ok p =>
        rw [hnext] at h
        have hlt := next_start_lt hnext
        rw [← hs] at hlt
        exact ih p.2.length (by omega) h rfl

/-! ## Strings -/

section Strings

variable (i start : Nat) (w : Bytes)

theorem step_string_close : step { offset := i, mode := .string start w } 0x22 =
    { offset := i + 1, done := [.string ⟨start, i + 1⟩ w.reverse] } := rfl

theorem step_string_escape : step { offset := i, mode := .string start w } 0x5C =
    { offset := i + 1, mode := .escape start w } := rfl

theorem step_string_plain {c : UInt8} (h22 : c ≠ 0x22) (h5C : c ≠ 0x5C) :
    step { offset := i, mode := .string start w } c = { offset := i + 1, mode := .string start (c :: w) } := by
  rw [step_eq_read rfl, Scanner.read]
  dsimp only
  rw [if_neg (by simpa using h22), if_neg (by simpa using h5C)]
  rfl

theorem step_escape (c : UInt8) : step { offset := i, mode := .escape start w } c =
    { offset := i + 1, mode := .string start (c :: w) } := rfl

end Strings

/-- The only error inside of a string is that it does not end. -/
theorem next_string_error {i start : Nat} {w : Bytes} {m : Mode} (hm : m = .string start w ∨ m = .escape start w)
    (h : next { offset := i, mode := m } t = .error f) : f = ⟨i + t.length, .unterminated, []⟩ := by
  induction t generalizing i w m with
  | nil =>
    obtain ⟨-, hfault | ⟨hnone, -⟩⟩ := next_nil_error h
    · rw [finish_of_string rfl hm] at hfault
      exact (Option.some.inj hfault).symm
    · rw [finish_of_string rfl hm] at hnone
      cases hnone
  | cons c t ih =>
    have hlen : i + (c :: t).length = i + 1 + t.length := by
      rw [List.length_cons]
      omega
    rw [hlen]
    rcases hm with rfl | rfl
    · by_cases h22 : c = 0x22
      · subst h22
        cases (next_cons_error h).1
      by_cases h5C : c = 0x5C
      · subst h5C
        rw [next_of_step (step_string_escape i start w) rfl rfl] at h
        exact ih (.inr rfl) h
      · rw [next_of_step (step_string_plain i start w h22 h5C) rfl rfl] at h
        exact ih (.inl rfl) h
    · rw [next_of_step (step_escape i start w c) rfl rfl] at h
      exact ih (.inl rfl) h

/-! ## Atoms -/

/-- What an atom of its own reads as, before the text `r`. -/
def wordOutcome (start : Nat) (w r : Bytes) : Except Fault (Form × Bytes) :=
  match atom start w with
  | .ok x => .ok (x, r)
  | .error 0 => .error ⟨start, .noForm, []⟩
  | .error i => .error ⟨start + i, .badRune, []⟩

theorem atomText_cons_of_delimiter {c : UInt8} (hc : isDelimiter c = true) (t : Bytes) :
    atomText (c :: t) = [] ∧ afterAtom (c :: t) = c :: t := by
  simp [atomText, afterAtom, hc]

theorem atomText_cons {c : UInt8} (hc : isDelimiter c = false) (t : Bytes) :
    atomText (c :: t) = c :: atomText t ∧ afterAtom (c :: t) = afterAtom t := by
  simp [atomText, afterAtom, hc]

/-- In an atom of its own the scanner goes on to the next delimiter. -/
theorem next_atomText (start : Nat) (z t : Bytes) :
    next { offset := start + z.length, mode := .atom start z } t =
      wordOutcome start (z.reverse ++ atomText t) (afterAtom t) := by
  induction t generalizing z with
  | nil =>
    have hnil : z.reverse ++ atomText [] = z.reverse := List.append_nil _
    rw [hnil, next, finish_of_atom rfl rfl, endAtom, wordOutcome]
    cases hatom : atom start z.reverse with
    | ok x => rfl
    | error i => cases i <;> rfl
  | cons c t ih =>
    by_cases hc : isDelimiter c = true
    · obtain ⟨htext, hafter⟩ := atomText_cons_of_delimiter hc t
      rw [htext, hafter, List.append_nil]
      have hstep := step_delimiter (s := { offset := start + z.length, mode := .atom start z }) rfl rfl hc
      rw [wordOutcome]
      cases hatom : atom start z.reverse with
      | ok x =>
        rw [endAtom, hatom] at hstep
        have hstop : x.span.stop = start + z.length := by
          rw [atom_span hatom]
          simp [spanOf]
        have hdone : (deliver { offset := start + z.length, mode := .atom start z } x).done = [x] := rfl
        rw [next_of_step_done (x := x) (l := []), hstop, if_pos (Nat.le_refl _)]
        rw [hstep]
        exact (enter_done c rfl).trans hdone
      | error i =>
        cases i with
        | zero =>
          rw [next, hstep, endAtom, hatom]
          rfl
        | succ i =>
          rw [next, hstep, endAtom, hatom]
          rfl
    · have hc' : isDelimiter c = false := by simpa using hc
      obtain ⟨htext, hafter⟩ := atomText_cons hc' t
      have hstep : step { offset := start + z.length, mode := .atom start z } c =
          { offset := start + (c :: z).length, mode := .atom start (c :: z) } := by
        rw [step_eq_read rfl, Scanner.read]
        dsimp only
        rw [if_neg hc]
        rfl
      rw [next_of_step hstep rfl rfl, ih, htext, hafter, List.reverse_cons, List.append_assoc]
      rfl

/-- A byte that is no delimiter starts an atom. -/
theorem next_nondelimiter {c : UInt8} (hc : isDelimiter c = false) (i : Nat) (t : Bytes) :
    next { offset := i } (c :: t) = wordOutcome i (atomText (c :: t)) (afterAtom (c :: t)) := by
  have hstep : step { offset := i } c = { offset := i + [c].length, mode := .atom i [c] } := by
    rw [step_of_blank rfl rfl, enter_atom rfl hc]
    rfl
  obtain ⟨htext, hafter⟩ := atomText_cons hc t
  rw [next_of_step hstep rfl rfl, next_atomText, htext, hafter]
  rfl

/-- What the scanner reads, with the errors as they are inside of what it is in. -/
def reading (s : Scanner) (t : Bytes) : Reading :=
  match s.next t with
  | .ok r => .ok r
  | .error f => .error (f.offset, f.error.bare)

theorem reading_ok {p : Form × Bytes} (h : s.next t = .ok p) : s.reading t = .ok p := by
  rw [reading, h]

theorem reading_error (h : s.next t = .error f) : s.reading t = .error (f.offset, f.error.bare) := by
  rw [reading, h]

theorem reading_of_step {u : Scanner} {c : UInt8} (h : s.step c = u) (hf : u.fault = none) (hd : u.done = [])
    (t : Bytes) : s.reading (c :: t) = u.reading t := by
  rw [reading, reading, next_of_step h hf hd]

theorem reading_quote (i start : Nat) (h : next { offset := i } t = .ok (x, r)) :
    reading { offset := i, frames := [.quote start] } t = .ok (quotedForm start x, r) := by
  rw [reading, next_quote, h]
  rfl

theorem reading_quote_error (i start : Nat) (h : next { offset := i } t = .error f) :
    reading { offset := i, frames := [.quote start] } t = .error (f.offset, .quoted f.error) := by
  have hnext := next_quote i start t
  rw [h] at hnext
  rw [reading_error hnext, f.error_inside_quote]
  rfl

theorem reading_string_close (i start : Nat) (w t : Bytes) :
    reading { offset := i, mode := .string start w } (0x22 :: t) =
      .ok (.string ⟨start, i + 1⟩ w.reverse, t) := by
  have hdone := congrArg Scanner.done (step_string_close i start w)
  rw [reading_ok (next_of_step_done hdone t)]
  exact congrArg (fun rest => Except.ok (_, rest)) (if_neg (Nat.not_succ_le_self i))

end Scanner

/-! ## Choices -/

theorem readMarked_of_ne {g : Grammar} {c mark : UInt8} (h : c ≠ mark) (inside : Scanner) (i : Nat) (t : Bytes) :
    readMarked g mark inside i (c :: t) = .error (i, .wanted g) := by
  rw [readMarked, if_pos (by simpa using h)]

theorem readMarked_mark (g : Grammar) (mark : UInt8) (inside : Scanner) (i : Nat) (t : Bytes) :
    readMarked g mark inside i (mark :: t) = inside.reading t := by
  rw [readMarked, if_neg (by simp)]
  rfl

namespace Grammar

variable {all gs : List Grammar} {g : Grammar} {first : Option (Nat × ReadError)} {i j : Nat} {t : Bytes}
  {e : ReadError} {r : Form × Bytes}

theorem read_form_of_ok (h : Scanner.next { offset := i } t = .ok r) : form.read i t = .ok r := by
  rw [Grammar.read, h]

theorem read_form_of_error {f : Fault} (h : Scanner.next { offset := i } t = .error f) :
    form.read i t = .error (f.offset, f.error) := by
  rw [Grammar.read, h]

theorem readAny_of_ok (h : g.read i t = .ok r) : readAny all (g :: gs) first i t = .ok r := by
  rw [readAny, h]

/-- An alternative that fails where it started is passed over. -/
theorem readAny_of_pass (h : g.read i t = .error (i, e)) :
    readAny all (g :: gs) first i t = readAny all gs first i t := by
  rw [readAny, h]
  dsimp only
  rw [if_pos rfl, Option.or_none]

/-- Of the alternatives that fail later the first one decides the error. -/
theorem readAny_of_later (h : g.read i t = .error (j, e)) (hj : j ≠ i) :
    readAny all (g :: gs) first i t = readAny all gs (first.or (some (j, .within g e))) i t := by
  rw [readAny, h]
  dsimp only
  rw [if_neg hj]

theorem read_list_of_ne {c : UInt8} (hc : c ≠ 0x28) : list.read i (c :: t) = .error (i, .wanted .list) := by
  rw [Grammar.read, readMarked_of_ne hc]

theorem read_quote_of_ne {c : UInt8} (hc : c ≠ 0x27) : quote.read i (c :: t) = .error (i, .wanted .quote) := by
  rw [Grammar.read, readMarked_of_ne hc]

theorem read_string_of_ne {c : UInt8} (hc : c ≠ 0x22) : string.read i (c :: t) = .error (i, .wanted .string) := by
  rw [Grammar.read, readMarked_of_ne hc]

/-- No atom starts with a delimiter. -/
theorem read_atom_of_delimiter {c : UInt8} (hc : isDelimiter c = true) :
    atom.read i (c :: t) = .error (i, .wanted .ident) := by
  obtain ⟨htext, -⟩ := Scanner.atomText_cons_of_delimiter hc t
  rw [Grammar.read, readNumber, readIdent, htext]
  rfl

/-- An atom reads as the scanner takes it. -/
theorem read_atom_eq (hne : (atomText t).isEmpty = false) : atom.read i t =
    ((RegisterMachine.atom i (atomText t)).map (·, afterAtom t)).mapError fun k => (i + k, .badRune) := by
  rw [RegisterMachine.atom, Grammar.read, readNumber, readIdent]
  cases hnum : number? (spanOf i (atomText t)) (atomText t) with
  | some y => rfl
  | none =>
    dsimp only
    rw [hne]
    cases hbad : badRune? (atomText t) with
    | some k => rfl
    | none => rfl

theorem read_list_mark : list.read i (0x28 :: t) =
    Scanner.reading { offset := i + 1, frames := [.list i []] } t := by
  rw [Grammar.read, readMarked_mark]

theorem read_quote_mark : quote.read i (0x27 :: t) =
    Scanner.reading { offset := i + 1, frames := [.quote i] } t := by
  rw [Grammar.read, readMarked_mark]

theorem read_string_mark : string.read i (0x22 :: t) =
    Scanner.reading { offset := i + 1, mode := .string i [] } t := by
  rw [Grammar.read, readMarked_mark]

/-- The alternatives fail where they start. -/
def AllPass (gs : List Grammar) (i : Nat) (t : Bytes) : Prop := ∀ g ∈ gs, ∃ e, g.read i t = .error (i, e)

theorem readAny_of_allPass (h : AllPass gs i t) (rest : List Grammar) :
    readAny all (gs ++ rest) first i t = readAny all rest first i t := by
  induction gs with
  | nil => rfl
  | cons g gs ih =>
    obtain ⟨⟨e, he⟩, hgs⟩ := List.forall_mem_cons.mp h
    rw [List.cons_append, readAny_of_pass he, ih hgs]

/-- If one kind of form alone gets past its first byte and reads as a form does, then the choice does. -/
theorem read_form_of_only {before after : List Grammar} (hsplit : formAlternatives = before ++ g :: after)
    (hbefore : AllPass before i t) (hafter : AllPass after i t)
    (hok : ∀ r, Scanner.next { offset := i } t = .ok r → g.read i t = .ok r)
    (herror : ∀ f, Scanner.next { offset := i } t = .error f → ∃ e, g.read i t = .error (f.offset, e) ∧
      (f.offset ≠ i ∧ f.error = .within g e ∨ f.offset = i ∧ f.error = .expected formAlternatives)) :
    form.read i t = (anyOf formAlternatives).read i t := by
  have hend (first : Option (Nat × ReadError)) :
      readAny formAlternatives after first i t = readAny formAlternatives [] first i t := by
    rw [← readAny_of_allPass hafter [], List.append_nil]
  have hchoice : (anyOf formAlternatives).read i t = readAny formAlternatives (g :: after) none i t := by
    rw [← readAny_of_allPass hbefore (g :: after), ← hsplit]
    rfl
  rw [hchoice]
  cases hnext : Scanner.next { offset := i } t with
  | ok r => rw [readAny_of_ok (hok r hnext), read_form_of_ok hnext]
  | error f =>
    rw [read_form_of_error hnext]
    obtain ⟨e, he, ⟨hne, herr⟩ | ⟨heq, herr⟩⟩ := herror f hnext
    · rw [readAny_of_later he hne, hend, herr]
      rfl
    · rw [heq] at he ⊢
      rw [readAny_of_pass he, hend, herr]
      rfl

/-- A form that starts with the mark of one kind. -/
theorem read_form_marked {before after : List Grammar} (hsplit : formAlternatives = before ++ g :: after)
    {mark : UInt8} (hbefore : AllPass before i (mark :: t)) (hafter : AllPass after i (mark :: t))
    {inside : Scanner} (hstep : Scanner.step { offset := i } mark = inside) (hdone : inside.done = [])
    (hfault : inside.fault = none) (hmode : ∀ start w, inside.mode ≠ .atom start w)
    (hread : g.read i (mark :: t) = inside.reading t)
    (herror : ∀ f, inside.next t = .error f → ∃ e, f.error = .within g e) :
    form.read i (mark :: t) = (anyOf formAlternatives).read i (mark :: t) := by
  have hnext : Scanner.next { offset := i } (mark :: t) = inside.next t :=
    Scanner.next_of_step hstep hfault hdone t
  refine read_form_of_only hsplit hbefore hafter ?_ ?_
  · intro r hr
    rw [hread, Scanner.reading_ok (hnext.symm.trans hr)]
  · intro f hf
    rw [hnext] at hf
    obtain ⟨e, he⟩ := herror f hf
    refine ⟨e, ?_, .inl ⟨?_, he⟩⟩
    · rw [hread, Scanner.reading_error hf, he]
      rfl
    · -- the error lies behind the mark
      have hoffset : inside.offset = i + 1 := by rw [← hstep, Scanner.step_offset rfl]
      have hpast : inside.Past (i + 1) := ⟨Nat.le_of_eq hoffset.symm, fun start w h => absurd h (hmode start w)⟩
      exact Nat.ne_of_gt (hpast.le_of_next hfault hf)

theorem read_form_list (i : Nat) (t : Bytes) :
    form.read i (0x28 :: t) = (anyOf formAlternatives).read i (0x28 :: t) := by
  have hsplit : formAlternatives = [] ++ list :: [quote, string, atom] := rfl
  have hstep : Scanner.step { offset := i } 0x28 = { offset := i + 1, frames := [.list i []] } := rfl
  refine read_form_marked hsplit (List.forall_mem_nil _) ?_ hstep rfl rfl (fun _ _ => Mode.noConfusion)
    read_list_mark (fun f hf => Scanner.next_list_error hf)
  simp only [AllPass, List.forall_mem_cons]
  exact ⟨⟨_, read_quote_of_ne (by decide)⟩, ⟨_, read_string_of_ne (by decide)⟩,
    ⟨_, read_atom_of_delimiter (by decide)⟩, List.forall_mem_nil _⟩

theorem read_form_quote (i : Nat) (t : Bytes) :
    form.read i (0x27 :: t) = (anyOf formAlternatives).read i (0x27 :: t) := by
  have hsplit : formAlternatives = [list] ++ quote :: [string, atom] := rfl
  have hstep : Scanner.step { offset := i } 0x27 = { offset := i + 1, frames := [.quote i] } := rfl
  refine read_form_marked hsplit ?_ ?_ hstep rfl rfl (fun _ _ => Mode.noConfusion)
    read_quote_mark (fun f hf => Scanner.next_quote_error hf)
  · simp only [AllPass, List.forall_mem_cons]
    exact ⟨⟨_, read_list_of_ne (by decide)⟩, List.forall_mem_nil _⟩
  · simp only [AllPass, List.forall_mem_cons]
    exact ⟨⟨_, read_string_of_ne (by decide)⟩, ⟨_, read_atom_of_delimiter (by decide)⟩, List.forall_mem_nil _⟩

theorem read_form_string (i : Nat) (t : Bytes) :
    form.read i (0x22 :: t) = (anyOf formAlternatives).read i (0x22 :: t) := by
  have hsplit : formAlternatives = [list, quote] ++ string :: [atom] := rfl
  have hstep : Scanner.step { offset := i } 0x22 = { offset := i + 1, mode := .string i [] } := rfl
  refine read_form_marked hsplit ?_ ?_ hstep rfl rfl (fun _ _ => Mode.noConfusion)
    read_string_mark (fun f hf => ?_)
  · simp only [AllPass, List.forall_mem_cons]
    exact ⟨⟨_, read_list_of_ne (by decide)⟩, ⟨_, read_quote_of_ne (by decide)⟩, List.forall_mem_nil _⟩
  · simp only [AllPass, List.forall_mem_cons]
    exact ⟨⟨_, read_atom_of_delimiter (by decide)⟩, List.forall_mem_nil _⟩
  · rw [Scanner.next_string_error (.inl rfl) hf]
    exact ⟨_, rfl⟩

theorem read_form_word {c : UInt8} (hc : isDelimiter c = false) (i : Nat) (t : Bytes) :
    form.read i (c :: t) = (anyOf formAlternatives).read i (c :: t) := by
  obtain ⟨-, h28, -, h22, h27, -⟩ := not_delimiter hc
  have hnext := Scanner.next_nondelimiter hc i t
  have hne : (atomText (c :: t)).isEmpty = false := by
    rw [(Scanner.atomText_cons hc t).1]
    rfl
  have hsplit : formAlternatives = [list, quote, string] ++ atom :: [] := rfl
  refine read_form_of_only hsplit ?_ (List.forall_mem_nil _) ?_ ?_
  · simp only [AllPass, List.forall_mem_cons]
    exact ⟨⟨_, read_list_of_ne h28⟩, ⟨_, read_quote_of_ne h27⟩, ⟨_, read_string_of_ne h22⟩, List.forall_mem_nil _⟩
  · intro r hr
    rw [hnext, Scanner.wordOutcome] at hr
    cases hatom : RegisterMachine.atom i (atomText (c :: t)) with
    | ok x =>
      rw [hatom] at hr
      cases hr
      rw [read_atom_eq hne, hatom]
      rfl
    | error k =>
      rw [hatom] at hr
      cases k <;> cases hr
  · intro f hf
    rw [hnext, Scanner.wordOutcome] at hf
    cases hatom : RegisterMachine.atom i (atomText (c :: t)) with
    | ok x =>
      rw [hatom] at hf
      cases hf
    | error k =>
      rw [hatom] at hf
      refine ⟨.badRune, ?_, ?_⟩
      · rw [read_atom_eq hne, hatom]
        cases k <;> cases hf <;> rfl
      · cases k with
        | zero =>
          cases hf
          exact .inr ⟨rfl, rfl⟩
        | succ k =>
          cases hf
          exact .inl ⟨Nat.ne_of_gt (Nat.lt_add_of_pos_right (Nat.succ_pos k)), rfl⟩

/-- **Reading a form is a choice** between its kinds. -/
theorem read_form_eq {c : UInt8} (hc : Scanner.Starts c) (i : Nat) (t : Bytes) :
    form.read i (c :: t) = (anyOf formAlternatives).read i (c :: t) := by
  obtain ⟨hsp, hsemi, hclose⟩ := hc
  rcases Scanner.byte_cases c with h | rfl | rfl | rfl | rfl | rfl | hw
  · rw [hsp] at h
    cases h
  · exact absurd rfl hsemi
  · exact read_form_list i t
  · exact absurd rfl hclose
  · exact read_form_quote i t
  · exact read_form_string i t
  · exact read_form_word hw i t

end Grammar

end RegisterMachine
