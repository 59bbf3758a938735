import RegisterMachine.Proofs.Translation

/-!
# The first form of all

Reading one form of a text stops with the first form or fault, and reading all of them goes on to the end; both see
the same first form.

* `Scanner.Adds s u`: from `s` to `u` at most one top level form is completed; a byte does no more, and neither
  does the end of the text.
* `Scanner.next_of_done`, `Scanner.next_of_fault`: what is read first is the first form of all, or the fault before
  it.
* `next_of_scan`, `blank_behind_iff`: the text that is left behind the first form, and when it is blank.
* `Source.readOne_of_scan`: a source with a single form is read as this form.
-/

namespace RegisterMachine

open Syntax

namespace Scanner

variable {s : Scanner} {t : Bytes} {x : Form} {f : Fault}

/-! ## One form at a time -/

theorem deliver_done (s : Scanner) (x : Form) : (s.deliver x).done = (handOver s.frames x).2.toList ++ s.done := by
  rw [deliver_eq]

/-- At most one form is added. -/
def Adds (s u : Scanner) : Prop := ∃ top : Option Form, u.done = top.toList ++ s.done

theorem adds_of_done_eq {s u : Scanner} (h : u.done = s.done) : s.Adds u := ⟨none, h⟩

theorem adds_deliver (s : Scanner) (x : Form) : s.Adds (s.deliver x) := ⟨_, deliver_done s x⟩

theorem adds_endAtom (s : Scanner) (start : Nat) (w : Bytes) : s.Adds (s.endAtom start w) := by
  unfold endAtom
  split
  · exact adds_deliver s _
  · exact adds_of_done_eq rfl
  · exact adds_of_done_eq rfl

theorem adds_enter (s : Scanner) (c : UInt8) : s.Adds (s.enter c) := by
  by_cases hc : c = 0x29
  · subst hc
    unfold enter
    split
    · exact adds_of_done_eq rfl
    rw [if_neg (by decide), if_neg (by decide), if_neg (by decide), if_pos (by decide)]
    split
    · next outer _ => exact adds_deliver { s with frames := outer } _
    · exact adds_of_done_eq rfl
  · exact adds_of_done_eq (enter_done_of_ne hc)

/-- An atom that is a form of its own leaves nothing open, so that the byte behind it completes nothing. -/
theorem adds_enter_endAtom (s : Scanner) (start : Nat) (w : Bytes) (c : UInt8) :
    s.Adds ((s.endAtom start w).enter c) := by
  unfold endAtom
  split
  · next x _ =>
    cases hh : handOver s.frames x with
    | mk outer top =>
      cases top with
      | none =>
        have hdone : (s.deliver x).done = s.done := by rw [deliver_done, hh]; rfl
        obtain ⟨top, h⟩ := adds_enter (s.deliver x) c
        exact ⟨top, hdone ▸ h⟩
      | some y =>
        have hfr : (s.deliver x).frames = [] := by rw [deliver_eq, hh]; exact (handOver_some hh).1
        obtain ⟨top, h⟩ := adds_deliver s x
        exact ⟨top, (enter_done c hfr).trans h⟩
  · exact adds_enter (s.fail start .noForm) c
  · exact adds_enter (s.fail _ .badRune) c

theorem adds_step (s : Scanner) (c : UInt8) : s.Adds (s.step c) := by
  unfold step
  split
  · exact adds_of_done_eq rfl
  show s.Adds (s.read c)
  unfold read
  cases s.mode with
  | blank => exact adds_enter s c
  | comment =>
    dsimp only
    split <;> exact adds_of_done_eq rfl
  | atom start w =>
    dsimp only
    split
    · exact adds_enter_endAtom s start w c
    · exact adds_of_done_eq rfl
  | string start w =>
    dsimp only
    split
    · exact adds_deliver s _
    · split <;> exact adds_of_done_eq rfl
  | escape start w => exact adds_of_done_eq rfl

theorem adds_finish (s : Scanner) : s.Adds s.finish := by
  unfold finish
  split
  · exact adds_of_done_eq rfl
  split
  · exact adds_of_done_eq rfl
  · exact adds_of_done_eq rfl
  · next start w _ =>
    dsimp only
    obtain ⟨top, h⟩ := adds_endAtom s start w
    split
    · exact ⟨top, h⟩
    · exact ⟨top, h⟩
  · split <;> exact adds_of_done_eq rfl

/-- The forms that are complete stay. -/
theorem done_suffix_foldl (s : Scanner) (t : Bytes) : s.done <:+ (t.foldl step s).finish.done := by
  induction t generalizing s with
  | nil =>
    obtain ⟨top, h⟩ := adds_finish s
    exact ⟨_, h.symm⟩
  | cons c t ih =>
    obtain ⟨top, h⟩ := adds_step s c
    exact List.IsSuffix.trans ⟨_, h.symm⟩ (ih (s.step c))

theorem Adds.cases {u : Scanner} (h : s.Adds u) (hd : s.done = []) : u.done = [] ∨ ∃ y, u.done = [y] := by
  obtain ⟨top, h⟩ := h
  rw [hd, List.append_nil] at h
  cases top with
  | none => exact .inl h
  | some y => exact .inr ⟨y, h⟩

/-! ## The first outcome -/

/-- The form that is read first is the first one of all. -/
theorem next_of_done (hd : s.done = []) {l : List Form} (h : (t.foldl step s).finish.done = l ++ [x]) :
    ∃ r, s.next t = .ok (x, r) := by
  induction t generalizing s with
  | nil =>
    change s.finish.done = l ++ [x] at h
    rcases (adds_finish s).cases hd with hnone | ⟨y, hone⟩
    · simp [hnone] at h
    · have hlast : [] ++ [y] = l ++ [x] := hone.symm.trans h
      obtain rfl := List.singleton_inj.mp (List.append_inj' hlast rfl).2
      exact ⟨[], by simp only [next, hone]⟩
  | cons c t ih =>
    rcases (adds_step s c).cases hd with hnone | ⟨y, hone⟩
    · cases hf : (s.step c).fault with
      | none => simpa only [next, hnone, hf] using ih hnone h
      | some f =>
        rw [List.foldl_cons, foldl_step_of_fault hf, finish_of_fault hf, hnone] at h
        simp at h
    · obtain ⟨m, hm⟩ := done_suffix_foldl (s.step c) t
      rw [hone] at hm
      obtain rfl := List.singleton_inj.mp (List.append_inj' (hm.trans h) rfl).2
      exact ⟨_, by simp only [next, hone]; rfl⟩

/-- Where no form is complete before a fault, the fault is that of the first form. -/
theorem next_of_fault (hd : s.done = []) (hdone : (t.foldl step s).finish.done = [])
    (hf : (t.foldl step s).finish.fault = some f) : s.next t = .error f := by
  induction t generalizing s with
  | nil =>
    change s.finish.done = [] at hdone
    change s.finish.fault = some f at hf
    simp only [next, hdone, hf]
  | cons c t ih =>
    have hnone : (s.step c).done = [] := List.suffix_nil.mp (hdone ▸ done_suffix_foldl (s.step c) t)
    cases hstep : (s.step c).fault with
    | none => simpa only [next, hnone, hstep] using ih hnone hdone hf
    | some g =>
      rw [List.foldl_cons, foldl_step_of_fault hstep, finish_of_fault hstep, hstep] at hf
      obtain rfl := Option.some.inj hf
      simp only [next, hnone, hstep]

theorem finish_offset (s : Scanner) : s.finish.offset = s.offset := by
  unfold finish
  split
  · rfl
  split
  · rfl
  · rfl
  · dsimp only
    split <;> exact endAtom_offset ..
  · split <;> rfl

/-- Where there is neither a form nor a fault, the text has ended too early. -/
theorem next_of_none (hd : s.done = []) (hdone : (t.foldl step s).finish.done = [])
    (hf : (t.foldl step s).finish.fault = none) : s.next t = .error ⟨s.offset + t.length, .endOfInput, []⟩ := by
  induction t generalizing s with
  | nil =>
    change s.finish.done = [] at hdone
    change s.finish.fault = none at hf
    simp only [next, hdone, hf, finish_offset]
    rfl
  | cons c t ih =>
    have hnone : (s.step c).done = [] := List.suffix_nil.mp (hdone ▸ done_suffix_foldl (s.step c) t)
    have hstep : (s.step c).fault = none := fault_of_foldl hf
    have hs : s.fault = none := fault_of_foldl (t := c :: t) hf
    simp only [next, hnone, hstep, ih hnone hdone hf, step_offset hs]
    rw [List.length_cons, Nat.add_assoc, Nat.add_comm 1]

end Scanner

/-! ## Texts with one form -/

theorem scan_done {t : Bytes} {xs : List Form} {e : Option Fault} (h : scan t = (xs, e)) :
    (t.foldl Scanner.step {}).finish.done = xs.reverse ∧ (t.foldl Scanner.step {}).finish.fault = e := by
  rw [scan_eq] at h
  obtain ⟨rfl, rfl⟩ := Prod.mk.inj h
  exact ⟨(List.reverse_reverse _).symm, rfl⟩

section Texts

variable {b : Bytes} {x : Form} {xs : List Form} {e : Option Fault}

/-- What is read first is the first form, and the text behind it is left. -/
theorem next_of_scan (h : scan b = (x :: xs, e)) : Scanner.next {} b = .ok (x, b.drop x.span.stop) := by
  have hdone := (scan_done h).1
  rw [List.reverse_cons] at hdone
  obtain ⟨r, hr⟩ := Scanner.next_of_done rfl hdone
  obtain ⟨u, rfl, hstop⟩ := Scanner.next_stop rfl rfl (by simp [Scanner.Aligned]) hr
  rw [hstop, Nat.zero_add, List.drop_left, hr]

/-- Only blanks stand behind the first form exactly if it is the only one and there is no fault. -/
theorem blank_behind_iff (h : scan b = (x :: xs, e)) :
    SpaceSet.all.skipBlanks (b.drop x.span.stop) = [] ↔ xs = [] ∧ e = none := by
  have hc := Scanner.next_ok rfl rfl (by simp [Scanner.Aligned]) (next_of_scan h) [x.bare]
  rw [← denotes_iff_accepts, scan_iff_denotes, h] at hc
  rw [skipBlanks_eq_nil_iff]
  constructor
  · intro hb
    obtain ⟨he, hforms⟩ := hc.mpr ⟨[], rfl, hb⟩
    rw [Form.bares_eq_map, List.map_cons] at hforms
    exact ⟨List.map_eq_nil_iff.mp (List.cons.inj hforms).2, he⟩
  · rintro ⟨rfl, rfl⟩
    obtain ⟨ys, hys, hb⟩ := hc.mp ⟨rfl, rfl⟩
    rwa [← (List.cons.inj hys).2] at hb

end Texts

namespace Source

theorem readOne_of_next {s : Source} {x : Form} {r : Bytes} (h : Scanner.next {} s.text = .ok (x, r)) :
    s.readOne .form = (some x, if (SpaceSet.all.skipBlanks r).isEmpty then none else
      some (s.problemAt (s.text.length - (SpaceSet.all.skipBlanks r).length)
        (.leftover (s.text.length - (SpaceSet.all.skipBlanks r).length)))) := by
  rw [readOne, Grammar.read, h]

theorem readOne_of_fault {s : Source} {f : Fault} (h : Scanner.next {} s.text = .error f) :
    s.readOne .form = (none, some (s.problemAt f.offset (.unreadable f.error))) := by
  rw [readOne, Grammar.read, h]

/-- A source whose only form is `x` is read as this one form. -/
theorem readOne_of_scan {s : Source} {x : Form} (h : scan s.text = ([x], none)) :
    s.readOne .form = (some x, none) := by
  rw [readOne_of_next (next_of_scan h), (blank_behind_iff h).mpr ⟨rfl, rfl⟩]
  rfl

end Source

end RegisterMachine
