import RegisterMachine.Proofs.Acceptance

/-!
# Reading one form

`Scanner.next` stops behind the first form of a text; what it leaves is exactly the text of the other forms
(`Scanner.next_ok`, `Scanner.next_stop`), and it fails only where there is no first form (`Scanner.next_error`).
So a source is read as one form exactly if its text denotes one (`Source.readOne_iff_denotes`).

The byte behind an atom ends it without belonging to it.  That it is left in the rest is decided by where the form
ends, which is why `Scanner.Aligned` follows the place of the scanner through an atom.
-/

namespace RegisterMachine

open Syntax

/-! ## Spans -/

/-- A number is an integer or a float. -/
theorem number?_kind {span : Span} {w : Bytes} {x : Form} (h : number? span w = some x) :
    (∃ n, x = .int span n) ∨ ∃ v, x = .float span v ∧ Literal.finiteFloat? w = some v := by
  unfold number? at h
  split at h
  · cases h
  split at h
  · cases h
    exact .inl ⟨_, rfl⟩
  dsimp only at h
  split at h
  · cases h
    exact .inl ⟨_, rfl⟩
  · obtain ⟨v, hv, rfl⟩ := Option.map_eq_some_iff.mp h
    exact .inr ⟨v, rfl, hv⟩

theorem number?_span {span : Span} {w : Bytes} {x : Form} (h : number? span w = some x) : x.span = span := by
  rcases number?_kind h with ⟨n, rfl⟩ | ⟨v, rfl, -⟩ <;> rfl

theorem atom_span {start : Nat} {w : Bytes} {x : Form} (h : atom start w = .ok x) : x.span = spanOf start w := by
  unfold atom at h
  split at h
  · next hn =>
    cases h
    exact number?_span hn
  · split at h
    · cases h
    · cases h
      rfl

/-- A form that reaches the top level stops where the form that was handed over does. -/
theorem handOver_some {frames outer : List Frame} {x y : Form} (h : handOver frames x = (outer, some y)) :
    outer = [] ∧ y.span.stop = x.span.stop := by
  induction frames generalizing x with
  | nil =>
    cases h
    exact ⟨rfl, rfl⟩
  | cons f frames ih =>
    cases f with
    | list => cases h
    | quote start => exact ih (x := quotedForm start x) h

namespace Scanner

variable {s : Scanner} {t : Bytes} {y : Form} {l : List Form}

/-! ## The byte that completes the first form -/

/-- The scanner has completed the form `y`, and `r` is the text of the forms behind it. -/
def Completed (s : Scanner) (t : Bytes) (y : Form) (r : Bytes) : Prop :=
  ∀ xs, Accepts s t xs ↔ ∃ ys, xs = y.bare :: ys ∧ Data r ys []

theorem deliver_completes (hf : s.fault = none) (hd : s.done = []) {x : Form} (h : (s.deliver x).done = y :: l) :
    y.span.stop = x.span.stop ∧ Completed (s.deliver x) t y t := by
  unfold deliver at h ⊢
  split at h
  · simp [hd] at h
  · next frames top htop =>
    obtain ⟨rfl, hstop⟩ := handOver_some htop
    rw [hd] at h
    cases h
    refine ⟨hstop, fun xs => ?_⟩
    simp [Accepts, Expects, Inside, hf, hd, Form.bares]

/-- Between forms only a closing bracket completes one. -/
theorem enter_done_of_ne {c : UInt8} (hc : c ≠ 0x29) : (s.enter c).done = s.done := by
  unfold enter
  split
  · rfl
  split
  · rfl
  split
  · rfl
  split
  · rfl
  split
  · next h => exact absurd (eq_of_beq h) hc
  split
  · rfl
  split <;> rfl

theorem enter_completes (hd : s.done = []) {c : UInt8} (h : (s.enter c).done = y :: l) :
    y.span.stop = s.offset + 1 ∧ Completed (s.enter c) t y t := by
  by_cases hc : c = 0x29
  · subst hc
    unfold enter at h ⊢
    by_cases hf : s.fault.isSome = true
    · rw [if_pos hf, hd] at h
      cases h
    rw [if_neg hf] at h ⊢
    have hsp : isSpace 0x29 ≠ true := by decide
    rw [if_neg hsp, if_neg (by decide), if_neg (by decide), if_pos (by decide)] at h ⊢
    split at h
    · next start items outer _ =>
        exact deliver_completes (s := { s with frames := outer }) (by simpa using hf) hd h
    · simp [fail, hd] at h
  · rw [enter_done_of_ne hc, hd] at h
    cases h

/-- In an atom, the scanner has passed exactly the bytes of the atom. -/
def Aligned (s : Scanner) : Prop :=
  s.fault = none → ∀ start w, s.mode = .atom start w → start + w.length = s.offset

theorem endAtom_done (hd : s.done = []) {start : Nat} {w : Bytes} (h : (s.endAtom start w).done = y :: l)
    (hf : s.fault = none) :
    y.span.stop = start + w.length ∧ (s.endAtom start w).frames = [] ∧ Completed (s.endAtom start w) t y t := by
  unfold endAtom at h ⊢
  split at h
  · next x hx =>
    obtain ⟨hstop, hc⟩ := deliver_completes (t := t) hf hd h
    refine ⟨?_, ?_, hc⟩
    · rw [hstop, atom_span hx]
      simp [spanOf]
    · unfold deliver at h ⊢
      split at h
      · simp [hd] at h
      · next htop => exact (handOver_some htop).1
  · simp [fail, hd] at h
  · simp [fail, hd] at h

theorem endAtom_offset (start : Nat) (w : Bytes) : (s.endAtom start w).offset = s.offset := by
  unfold endAtom
  split
  · unfold deliver
    split <;> rfl
  · rfl
  · rfl

/-- **A byte that completes the first form** leaves the scanner with the text behind that form, which stops before
the byte or behind it. -/
theorem step_completes (hf : s.fault = none) (hd : s.done = []) (ha : s.Aligned) {c : UInt8}
    (h : (s.step c).done = y :: l) :
    (y.span.stop = s.offset ∨ y.span.stop = s.offset + 1) ∧
      Completed (s.step c) t y (if y.span.stop ≤ s.offset then c :: t else t) := by
  unfold step at h ⊢
  rw [if_neg (by simp [hf])] at h ⊢
  -- the offset plays no part in what is expected
  show _ ∧ Completed (s.read c) t y _
  change (s.read c).done = y :: l at h
  unfold read at h ⊢
  cases hm : s.mode with
  | blank =>
    rw [hm] at h
    dsimp only at h ⊢
    obtain ⟨hstop, hc⟩ := enter_completes (t := t) hd h
    rw [hstop, if_neg (by omega)]
    exact ⟨.inr rfl, hc⟩
  | comment =>
    rw [hm] at h
    dsimp only at h
    split at h <;> simp [hd] at h
  | atom start w =>
    rw [hm] at h
    dsimp only at h ⊢
    by_cases hdel : isDelimiter c = true
    · rw [if_pos hdel] at h ⊢
      -- the byte ends the atom, and then it may close a list
      cases hdone : (s.endAtom start w).done with
      | nil =>
        obtain ⟨hstop, hc⟩ := enter_completes (t := t) hdone h
        rw [endAtom_offset] at hstop
        rw [hstop, if_neg (by omega)]
        exact ⟨.inr rfl, hc⟩
      | cons z k =>
        obtain ⟨hstop, hfr, hc⟩ := endAtom_done (t := c :: t) hd hdone hf
        rw [enter_done c hfr, hdone] at h
        cases h
        rw [hstop, ha hf start w hm, if_pos (Nat.le_refl _)]
        refine ⟨.inl rfl, fun xs => ?_⟩
        rw [accepts_enter_iff (endAtom_mode start w)]
        exact hc xs
    · rw [if_neg hdel] at h
      simp [hd] at h
  | string start w =>
    rw [hm] at h
    dsimp only at h ⊢
    by_cases h22 : (c == 0x22) = true
    · rw [if_pos h22] at h ⊢
      obtain ⟨hstop, hc⟩ := deliver_completes (t := t) hf hd h
      replace hstop : y.span.stop = s.offset + 1 := hstop
      rw [hstop, if_neg (by omega)]
      exact ⟨.inr rfl, hc⟩
    · rw [if_neg h22] at h
      split at h <;> simp [hd] at h
  | escape start w =>
    rw [hm] at h
    simp [hd] at h

/-! ## Through the text -/

theorem enter_mode {c : UInt8} (hm : s.fault = none → s.mode = .blank) {start : Nat} {w : Bytes}
    (hf : (s.enter c).fault = none) (h : (s.enter c).mode = .atom start w) : start = s.offset ∧ w = [c] := by
  unfold enter at hf h
  split at h
  · next hs =>
    rw [if_pos hs] at hf
    simp [hf] at hs
  · next hs =>
    replace hm := hm (by simpa using hs)
    split at h
    · simp [hm] at h
    split at h
    · cases h
    split at h
    · simp [hm] at h
    split at h
    · split at h
      · simp [deliver_mode] at h
      · simp [fail, hm] at h
    split at h
    · simp [hm] at h
    split at h
    · cases h
    · cases h
      exact ⟨rfl, rfl⟩

theorem aligned_step (ha : s.Aligned) (c : UInt8) : (s.step c).Aligned := by
  unfold step
  split
  · exact ha
  · next hs =>
    have hf : s.fault = none := by simpa using hs
    intro hf' start w h
    change (s.read c).fault = none at hf'
    change (s.read c).mode = .atom start w at h
    show start + w.length = s.offset + 1
    unfold read at hf' h
    cases hm : s.mode with
    | blank =>
      rw [hm] at hf' h
      obtain ⟨rfl, rfl⟩ := enter_mode (fun _ => hm) hf' h
      rfl
    | comment =>
      rw [hm] at h
      dsimp only at h
      split at h
      · cases h
      · rw [hm] at h
        cases h
    | atom start' w' =>
      rw [hm] at hf' h
      dsimp only at hf' h
      by_cases hdel : isDelimiter c = true
      · rw [if_pos hdel] at hf' h
        obtain ⟨rfl, rfl⟩ := enter_mode (endAtom_mode start' w') hf' h
        rw [endAtom_offset]
        rfl
      · rw [if_neg hdel] at h
        cases h
        have := ha hf start w' hm
        rw [List.length_cons]
        omega
    | string start' w' =>
      rw [hm] at h
      dsimp only at h
      split at h
      · simp [deliver_mode] at h
      · split at h <;> cases h
    | escape start' w' =>
      rw [hm] at h
      cases h

/-- At the end of the text only the end of an atom completes a form. -/
theorem finish_completes (hf : s.fault = none) (hd : s.done = []) (h : s.finish.done = y :: l) :
    ∃ start w, s.mode = .atom start w ∧ (s.endAtom start w).done = y :: l := by
  unfold finish at h
  rw [if_neg (by simp [hf])] at h
  cases hm : s.mode with
  | atom start w =>
    refine ⟨start, w, rfl, ?_⟩
    rw [hm] at h
    dsimp only at h
    split at h <;> exact h
  | blank | comment =>
    rw [hm] at h
    dsimp only at h
    split at h <;> simp [hd, fail] at h
  | string start w | escape start w =>
    rw [hm] at h
    simp [hd, fail] at h

theorem step_offset (hf : s.fault = none) (c : UInt8) : (s.step c).offset = s.offset + 1 := by
  rw [step, if_neg (by simp [hf])]

/-- What is left behind the first form is the text of the other forms. -/
theorem next_ok (hf : s.fault = none) (hd : s.done = []) (ha : s.Aligned) {r : Bytes} (h : s.next t = .ok (y, r)) :
    Completed s t y r := by
  induction t generalizing s with
  | nil =>
    unfold next at h
    dsimp only at h
    split at h
    · rename_i hdone
      cases h
      obtain ⟨start, w, hm, he⟩ := finish_completes hf hd hdone
      intro xs
      rw [accepts_atom_nil_iff hf hm]
      exact (endAtom_done hd he hf).2.2 xs
    · cases h
    · cases h
  | cons c t ih =>
    unfold next at h
    dsimp only at h
    intro xs
    rw [← accepts_step_iff]
    split at h
    · rename_i hdone
      cases h
      exact (step_completes hf hd ha hdone).2 xs
    · cases h
    · next hdone hfault => exact ih hfault hdone (aligned_step ha c) h xs

/-- The first form stops where the text that is left begins. -/
theorem next_stop (hf : s.fault = none) (hd : s.done = []) (ha : s.Aligned) {r : Bytes}
    (h : s.next t = .ok (y, r)) :
    ∃ u, t = u ++ r ∧ y.span.stop = s.offset + u.length := by
  induction t generalizing s with
  | nil =>
    unfold next at h
    dsimp only at h
    split at h
    · rename_i hdone
      cases h
      obtain ⟨start, w, hm, he⟩ := finish_completes hf hd hdone
      refine ⟨[], rfl, ?_⟩
      rw [(endAtom_done (t := []) hd he hf).1, ha hf start w hm]
      rfl
    · cases h
    · cases h
  | cons c t ih =>
    unfold next at h
    dsimp only at h
    split at h
    · rename_i hdone
      cases h
      rcases (step_completes (t := t) hf hd ha hdone).1 with hstop | hstop
      · exact ⟨[], by rw [if_pos (Nat.le_of_eq hstop)]; rfl, hstop⟩
      · exact ⟨[c], by rw [if_neg (by omega)]; rfl, hstop⟩
    · cases h
    · next hdone hfault =>
      obtain ⟨u, rfl, hstop⟩ := ih hfault hdone (aligned_step ha c) h
      refine ⟨c :: u, rfl, ?_⟩
      rw [hstop, step_offset hf, List.length_cons, Nat.add_assoc, Nat.add_comm 1]

/-- Where there is no first form there is none at all. -/
theorem next_error (hd : s.done = []) {f : Fault} (h : s.next t = .error f) {xs : List Form}
    (hx : Accepts s t xs) :
    xs = [] := by
  induction t generalizing s with
  | nil =>
    rw [accepts_finish_iff] at hx
    unfold next at h
    dsimp only at h
    split at h
    · cases h
    · next hfault => simp [hfault] at hx
    · next hdone hfault => simpa [hdone, Form.bares, eq_comm] using hx.2
  | cons c t ih =>
    rw [← accepts_step_iff] at hx
    unfold next at h
    dsimp only at h
    split at h
    · cases h
    · next hfault => exact absurd hx.1 (by simp [hfault])
    · next hdone hfault => exact ih hdone h hx

end Scanner

/-! ## Sources of one form -/

theorem skipBlanks_eq_nil_iff {r : Bytes} : SpaceSet.all.skipBlanks r = [] ↔ Data r [] [] := by
  constructor
  · intro h
    exact .nil (h ▸ blanks_skipBlanks r)
  · intro h
    cases h with
    | nil hb => exact hb.skipBlanks_eq

/-- **A source is read as one form exactly if its text denotes one.** -/
theorem Source.readOne_iff_denotes (s : Source) (x : Form) :
    (∃ y, s.readOne .form = (some y, none) ∧ y.bare = x) ↔ Denotes s.text [x] := by
  rw [denotes_iff_accepts, Source.readOne, Grammar.read]
  cases hn : Scanner.next {} s.text with
  | error f =>
    refine iff_of_false ?_ fun h => absurd (Scanner.next_error rfl hn h) (by simp)
    rintro ⟨y, h, -⟩
    cases h
  | ok p =>
    obtain ⟨y, r⟩ := p
    have hc := Scanner.next_ok rfl rfl (by simp [Scanner.Aligned]) hn
    rw [hc]
    dsimp only
    constructor
    · rintro ⟨z, h, rfl⟩
      obtain ⟨hz, hr⟩ := Prod.mk.inj h
      obtain rfl := Option.some.inj hz
      refine ⟨[], rfl, skipBlanks_eq_nil_iff.mp ?_⟩
      split at hr
      · next he => exact List.isEmpty_iff.mp he
      · cases hr
    · rintro ⟨ys, h, hr⟩
      obtain ⟨rfl, rfl⟩ := List.cons.inj h
      refine ⟨y, ?_, rfl⟩
      rw [skipBlanks_eq_nil_iff.mpr hr]
      rfl

end RegisterMachine
