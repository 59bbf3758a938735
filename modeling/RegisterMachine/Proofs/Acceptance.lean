import RegisterMachine.Form.Source
import RegisterMachine.Proofs.Syntax
import RegisterMachine.Proofs.Utf8

/-!
# The scanner accepts exactly the syntax

`Scanner.Accepts s t xs` says, by the rules of `Syntax`, what a scanner still expects: that the text `t` completes
what is open in `s`, and that the forms of the whole text are then `xs`.  It holds before a byte exactly if it
holds after the byte (`Scanner.accepts_step_iff`), and at the end of the text exactly if nothing is open
(`Scanner.accepts_finish_iff`); so scanning and the rules agree on every text.

* `Syntax.After`, `Syntax.Inside`: what the open frames expect, behind a complete form and between forms.
* `Scanner.accepts_iff`: the run of a scanner.
* `Source.readAll_iff_denotes`: the forms of a source.
-/

namespace RegisterMachine

namespace Syntax

/-! ## What open frames expect -/

/-- A form is complete inside these frames and `t` is left: the forms of the whole text are `xs`. -/
def After (done : List Form) : List Frame → Form → Bytes → List Form → Prop
  | [], x, t, xs => ∃ ys, xs = Form.bares done.reverse ++ x :: ys ∧ Data t ys []
  | .list _ items :: outer, x, t, xs =>
    ∃ ys r, Data t ys (0x29 :: r) ∧ After done outer (.list .none (Form.bares items.reverse ++ x :: ys)) r xs
  | .quote _ :: outer, x, t, xs => After done outer x.quoted t xs

/-- Between forms, inside these frames, `t` is left: the forms of the whole text are `xs`. -/
def Inside (done : List Form) : List Frame → Bytes → List Form → Prop
  | [], t, xs => ∃ ys, xs = Form.bares done.reverse ++ ys ∧ Data t ys []
  | .list _ items :: outer, t, xs =>
    ∃ ys r, Data t ys (0x29 :: r) ∧ After done outer (.list .none (Form.bares items.reverse ++ ys)) r xs
  | .quote _ :: outer, t, xs => ∃ y r, Datum (SpaceSet.all.skipBlanks t) y r ∧ After done outer y.quoted r xs

variable {done : List Form} {frames : List Frame} {t : Bytes} {xs : List Form}

theorem solid_nil : Solid [] := rfl

theorem solid_close {r : Bytes} : Solid (0x29 :: r) := skipBlanks_solid rfl (by decide)

/-- Handing a form over leaves the scanner between forms. -/
theorem inside_handOver (frames : List Frame) (x : Form) :
    Inside ((handOver frames x).2.toList ++ done) (handOver frames x).1 t xs ↔ After done frames x.bare t xs := by
  induction frames generalizing x with
  | nil => simp [handOver, Inside, After, Form.bares]
  | cons f outer ih =>
    cases f with
    | list start items => simp [handOver, Inside, After, Form.bares]
    | quote start => exact ih (quotedForm start x)

theorem inside_skipBlanks_iff : Inside done frames (SpaceSet.all.skipBlanks t) xs ↔ Inside done frames t xs := by
  cases frames with
  | nil => simp only [Inside, data_skipBlanks_iff solid_nil]
  | cons f outer =>
    cases f with
    | list start items => simp only [Inside, data_skipBlanks_iff solid_close]
    | quote start => rw [Inside, ← (blanks_skipBlanks t).skipBlanks_eq]; rfl

/-- Where a datum has to start, one does, and behind it the frames go on. -/
theorem inside_start_iff {c : UInt8} (hs : Solid (c :: t)) (hc : c ≠ 0x29) :
    Inside done frames (c :: t) xs ↔ ∃ x r, Datum (c :: t) x r ∧ After done frames x r xs := by
  have hne : ∀ r, c :: t ≠ 0x29 :: r := fun r h => hc (List.cons.inj h).1
  cases frames with
  | nil =>
    simp only [Inside, After, data_start_iff hs solid_nil (List.cons_ne_nil c t)]
    constructor
    · rintro ⟨_, rfl, x, u, ys, rfl, hx, hys⟩
      exact ⟨x, u, hx, ys, rfl, hys⟩
    · rintro ⟨x, u, hx, ys, rfl, hys⟩
      exact ⟨_, rfl, x, u, ys, rfl, hx, hys⟩
  | cons f outer =>
    cases f with
    | list start items =>
      simp only [Inside, After, data_start_iff hs solid_close (hne _)]
      constructor
      · rintro ⟨_, r, ⟨x, u, ys, rfl, hx, hys⟩, h⟩
        exact ⟨x, u, hx, ys, r, hys, h⟩
      · rintro ⟨x, u, hx, ys, r, hys, h⟩
        exact ⟨_, r, ⟨x, u, ys, rfl, hx, hys⟩, h⟩
    | quote start =>
      rw [Inside, hs]
      rfl

/-- A closing bracket is expected by a list only. -/
theorem inside_close_iff : Inside done frames (0x29 :: t) xs ↔
    ∃ start items outer, frames = .list start items :: outer ∧
      After done outer (.list .none (Form.bares items.reverse)) t xs := by
  cases frames with
  | nil =>
    simp only [Inside, data_start_iff solid_close solid_nil (List.cons_ne_nil _ _)]
    constructor
    · rintro ⟨_, -, x, u, ys, -, hx, -⟩
      exact absurd hx Datum.ne_close
    · rintro ⟨_, _, _, h, -⟩
      cases h
  | cons f outer =>
    cases f with
    | list start items =>
      constructor
      · rintro ⟨ys, r, hys, h⟩
        by_cases hr : r = t
        · subst hr
          rw [data_end_iff solid_close (fun _ _ => Datum.ne_close)] at hys
          subst hys
          exact ⟨start, items, outer, rfl, by simpa using h⟩
        · rw [data_start_iff solid_close solid_close (fun he => hr (List.cons.inj he).2.symm)] at hys
          obtain ⟨x, u, ys, -, hx, -⟩ := hys
          exact absurd hx Datum.ne_close
      · rintro ⟨_, _, _, he, h⟩
        cases he
        exact ⟨[], t, .nil .nil, by simpa using h⟩
    | quote start =>
      rw [Inside, solid_close]
      constructor
      · rintro ⟨y, r, hy, -⟩
        exact absurd hy Datum.ne_close
      · rintro ⟨_, _, _, h, -⟩
        cases h

/-- Nothing may be open at the end of the text. -/
theorem inside_nil_iff : Inside done frames [] xs ↔ frames = [] ∧ Form.bares done.reverse = xs := by
  cases frames with
  | nil =>
    simp only [Inside, data_end_iff solid_nil (fun _ _ => Datum.ne_nil), true_and]
    constructor
    · rintro ⟨ys, rfl, rfl⟩
      exact (List.append_nil _).symm
    · intro h
      exact ⟨[], by rw [List.append_nil, h], rfl⟩
  | cons f outer =>
    refine iff_of_false ?_ (by simp)
    cases f with
    | list start items =>
      rintro ⟨ys, r, hys, -⟩
      rw [data_start_iff solid_nil solid_close (List.cons_ne_nil _ _).symm] at hys
      obtain ⟨x, u, -, -, hx, -⟩ := hys
      exact Datum.ne_nil hx
    | quote start =>
      rintro ⟨y, r, hy, -⟩
      exact Datum.ne_nil hy

end Syntax

/-! ## Atoms -/

theorem number?_bare (span : Span) (w : Bytes) : (number? span w).map Form.bare = number? .none w := by
  unfold number?
  split
  · rfl
  split
  · rfl
  dsimp only
  split
  · rfl
  · cases Literal.finiteFloat? w <;> rfl

/-- An atom reads as what its bytes denote. -/
theorem atom_iff_word (start : Nat) (w : Bytes) (y : Form) :
    (∃ x, atom start w = .ok x ∧ x.bare = y) ↔ Syntax.Word w y := by
  have hn := number?_bare (spanOf start w) w
  unfold atom
  cases hx : number? (spanOf start w) w with
  | some x =>
    rw [hx] at hn
    constructor
    · rintro ⟨_, h, rfl⟩
      obtain rfl := Except.ok.inj h
      exact .number hn.symm
    · rintro (h | ⟨t, h, -⟩)
      · exact ⟨x, rfl, Option.some.inj (hn.trans h)⟩
      · exact absurd (hn.trans h) (by simp)
  | none =>
    rw [hx] at hn
    cases hb : badRune? w with
    | some i =>
      constructor
      · rintro ⟨_, h, -⟩
        cases h
      · rintro (h | ⟨t, -, ht⟩)
        · exact absurd (hn.trans h) (by simp)
        · exact absurd (badRune?_eq_none_iff.mpr ⟨t, ht⟩) (by simp [hb])
    | none =>
      obtain ⟨t, ht⟩ := badRune?_eq_none_iff.mp hb
      constructor
      · rintro ⟨_, h, rfl⟩
        obtain rfl := Except.ok.inj h
        exact .ident t hn.symm ht
      · rintro (h | ⟨t, -, -⟩)
        · exact absurd (hn.trans h) (by simp)
        · exact ⟨_, rfl, rfl⟩

namespace Scanner

open Syntax

variable {s : Scanner} {t : Bytes} {xs : List Form}

/-! ## What a scanner expects -/

/-- The text `t` completes what the scanner is in the middle of, and the forms of the whole text are then `xs`. -/
def Expects (done : List Form) (frames : List Frame) : Mode → Bytes → List Form → Prop
  | .blank, t, xs => Inside done frames t xs
  | .comment, t, xs => Inside done frames (SpaceSet.all.skipFrom true t) xs
  | .atom _ w, t, xs =>
    ∃ u r x, t = u ++ r ∧ (∀ c ∈ u, isDelimiter c = false) ∧ EndsWord r ∧ Word (w.reverse ++ u) x ∧
      After done frames x r xs
  | .string _ w, t, xs => ∃ v r, Characters t v r ∧ After done frames (.string .none (w.reverse ++ v)) r xs
  | .escape _ w, t, xs =>
    ∃ c s v r, t = c :: s ∧ Characters s v r ∧ After done frames (.string .none (w.reverse ++ c :: v)) r xs

/-- The scanner has met no fault, and the text `t` completes what is open in it. -/
def Accepts (s : Scanner) (t : Bytes) (xs : List Form) : Prop :=
  s.fault = none ∧ Expects s.done s.frames s.mode t xs

theorem not_accepts_fail {offset : Nat} {cause : Cause} : ¬ Accepts (s.fail offset cause) t xs :=
  fun h => nomatch h.1

theorem accepts_deliver_iff (hf : s.fault = none) (x : Form) :
    Accepts (s.deliver x) t xs ↔ After s.done s.frames x.bare t xs := by
  rw [← inside_handOver]
  unfold deliver
  split
  · next frames h => simp [Accepts, Expects, h, hf]
  · next frames top h => simp [Accepts, Expects, h, hf]

theorem accepts_endAtom_iff (hf : s.fault = none) (start : Nat) (w : Bytes) :
    Accepts (s.endAtom start w) t xs ↔ ∃ x, Word w.reverse x ∧ After s.done s.frames x t xs := by
  simp only [← atom_iff_word start]
  unfold endAtom
  constructor
  · intro h
    split at h
    · next x hx => exact ⟨x.bare, ⟨x, hx, rfl⟩, (accepts_deliver_iff hf x).mp h⟩
    · exact absurd h not_accepts_fail
    · exact absurd h not_accepts_fail
  · rintro ⟨_, ⟨x, hx, rfl⟩, h⟩
    rw [hx]
    exact (accepts_deliver_iff hf x).mpr h

/-! ## One byte -/

/-- A byte between forms. -/
theorem accepts_enter_iff (hm : s.fault = none → s.mode = .blank) (c : UInt8) :
    Accepts (s.enter c) t xs ↔ Accepts s (c :: t) xs := by
  unfold enter
  by_cases hf : s.fault.isSome = true
  · rw [if_pos hf]
    constructor <;> intro h <;> simp [h.1] at hf
  rw [if_neg hf]
  replace hf : s.fault = none := by simpa using hf
  replace hm := hm hf
  have hi : Accepts s (c :: t) xs ↔ Inside s.done s.frames (c :: t) xs := by simp [Accepts, Expects, hf, hm]
  rw [hi]
  by_cases hsp : isSpace c = true
  · rw [if_pos hsp, ← inside_skipBlanks_iff (t := c :: t), skipBlanks_space hsp, inside_skipBlanks_iff]
    simp [Accepts, Expects, hf, hm]
  rw [if_neg hsp]
  by_cases hcm : c = byte ';'
  · subst hcm
    rw [if_pos (beq_self_eq_true _), ← inside_skipBlanks_iff (t := byte ';' :: t)]
    simp only [Accepts, Expects, hf, true_and]
    exact Iff.rfl
  rw [if_neg (by simpa using hcm)]
  have hs : Solid (c :: t) := skipBlanks_solid (by simpa using hsp) hcm
  by_cases h28 : c = 0x28
  · subst h28
    rw [if_pos (beq_self_eq_true _), inside_start_iff hs (by decide)]
    simp only [datum_open_iff, Accepts, Expects, hf, hm, true_and, Inside]
    constructor
    · rintro ⟨ys, r, hys, h⟩
      exact ⟨_, r, ⟨ys, rfl, hys⟩, h⟩
    · rintro ⟨_, r, ⟨ys, rfl, hys⟩, h⟩
      exact ⟨ys, r, hys, h⟩
  rw [if_neg (by simpa using h28)]
  by_cases h29 : c = 0x29
  · subst h29
    rw [if_pos (beq_self_eq_true _), inside_close_iff]
    split
    · next start items outer hfr =>
      rw [accepts_deliver_iff (by exact hf), hfr]
      constructor
      · intro h
        exact ⟨start, items, outer, rfl, h⟩
      · rintro ⟨_, _, _, he, h⟩
        cases he
        exact h
    · next hfr =>
      constructor
      · intro h
        exact absurd h not_accepts_fail
      · rintro ⟨start, items, outer, he, -⟩
        exact absurd he (hfr start items outer)
  rw [if_neg (by simpa using h29), inside_start_iff hs h29]
  by_cases h27 : c = 0x27
  · subst h27
    rw [if_pos (beq_self_eq_true _)]
    simp only [datum_quote_iff, Accepts, Expects, hf, hm, true_and, Inside]
    constructor
    · rintro ⟨y, r, hy, h⟩
      exact ⟨_, r, ⟨y, rfl, hy⟩, h⟩
    · rintro ⟨_, r, ⟨y, rfl, hy⟩, h⟩
      exact ⟨y, r, hy, h⟩
  rw [if_neg (by simpa using h27)]
  by_cases h22 : c = 0x22
  · subst h22
    rw [if_pos (beq_self_eq_true _)]
    simp only [datum_string_iff, Accepts, Expects, hf, true_and]
    constructor
    · rintro ⟨v, r, hv, h⟩
      exact ⟨_, r, ⟨v, rfl, hv⟩, h⟩
    · rintro ⟨_, r, ⟨v, rfl, hv⟩, h⟩
      exact ⟨v, r, hv, h⟩
  rw [if_neg (by simpa using h22)]
  have hd : isDelimiter c = false := by
    simp [isDelimiter, h28, h29, h22, h27, hsp, show c ≠ 0x3B from hcm]
  simp only [datum_word_iff hd, Accepts, Expects, hf, true_and]
  constructor
  · rintro ⟨u, r, x, rfl, hu, hr, hx, h⟩
    exact ⟨x, r, ⟨u, rfl, hu, hr, hx⟩, h⟩
  · rintro ⟨x, r, ⟨u, rfl, hu, hr, hx⟩, h⟩
    exact ⟨u, r, x, rfl, hu, hr, hx, h⟩

/-- A byte of a comment. -/
theorem accepts_comment_iff (hf : s.fault = none) (hm : s.mode = .comment) (c : UInt8) :
    Accepts (s.read c) t xs ↔ Accepts s (c :: t) xs := by
  have hi : Accepts s (c :: t) xs ↔ Inside s.done s.frames (SpaceSet.all.skipFrom true (c :: t)) xs := by
    simp [Accepts, Expects, hf, hm]
  rw [hi, read, hm]
  dsimp only
  by_cases hc : c = byte '\n'
  · subst hc
    rw [if_pos (beq_self_eq_true _), skipFrom_endsLine (by simp [EndsLine]), skipBlanks_space rfl,
      inside_skipBlanks_iff]
    simp [Accepts, Expects, hf]
  · rw [if_neg (by simpa using hc), SpaceSet.skipFrom, if_pos (by simpa using hc)]
    simp [Accepts, Expects, hf, hm]

theorem deliver_mode (s : Scanner) (x : Form) : (s.deliver x).mode = .blank := by
  unfold deliver
  split <;> rfl

theorem endAtom_mode (start : Nat) (w : Bytes) (hf : (s.endAtom start w).fault = none) :
    (s.endAtom start w).mode = .blank := by
  unfold endAtom at hf ⊢
  split
  · exact deliver_mode s _
  · simp_all [fail]
  · simp_all [fail]

/-- A byte of an atom, or behind it. -/
theorem accepts_atom_iff (hf : s.fault = none) {start : Nat} {w : Bytes} (hm : s.mode = .atom start w)
    (c : UInt8) :
    Accepts (s.read c) t xs ↔ Accepts s (c :: t) xs := by
  have hi : Accepts s (c :: t) xs ↔ ∃ u r x, c :: t = u ++ r ∧ (∀ d ∈ u, isDelimiter d = false) ∧ EndsWord r ∧
      Word (w.reverse ++ u) x ∧ After s.done s.frames x r xs := by simp [Accepts, Expects, hf, hm]
  rw [hi, read, hm]
  dsimp only
  by_cases hc : isDelimiter c = true
  · rw [if_pos hc, accepts_enter_iff (endAtom_mode start w), accepts_endAtom_iff hf]
    constructor
    · rintro ⟨x, hx, h⟩
      exact ⟨[], c :: t, x, rfl, by simp, by simp [EndsWord, hc], by simpa using hx, h⟩
    · rintro ⟨u, r, x, he, hu, hr, hx, h⟩
      cases u with
      | nil => exact ⟨x, by simpa using hx, by simpa [he] using h⟩
      | cons d u =>
        cases he
        simp [hc] at hu
  · rw [if_neg hc]
    simp only [Accepts, Expects, hf, true_and, List.reverse_cons, List.append_assoc, List.singleton_append]
    constructor
    · rintro ⟨u, r, x, rfl, hu, hr, hx, h⟩
      exact ⟨c :: u, r, x, rfl, List.forall_mem_cons.mpr ⟨by simpa using hc, hu⟩, hr, hx, h⟩
    · rintro ⟨u, r, x, he, hu, hr, hx, h⟩
      cases u with
      | nil =>
        obtain rfl : c :: t = r := he
        exact absurd (hr c rfl) hc
      | cons d u =>
        cases he
        exact ⟨u, r, x, rfl, (List.forall_mem_cons.mp hu).2, hr, hx, h⟩

/-- A byte of a string that no backslash precedes. -/
theorem accepts_string_iff (hf : s.fault = none) {start : Nat} {w : Bytes} (hm : s.mode = .string start w)
    (c : UInt8) : Accepts (s.read c) t xs ↔ Accepts s (c :: t) xs := by
  have hi : Accepts s (c :: t) xs ↔ ∃ v r, Characters (c :: t) v r ∧
      After s.done s.frames (.string .none (w.reverse ++ v)) r xs := by simp [Accepts, Expects, hf, hm]
  rw [hi, read, hm]
  dsimp only
  by_cases h22 : c = 0x22
  · subst h22
    rw [if_pos (beq_self_eq_true _), accepts_deliver_iff hf]
    simp [characters_close_iff, Form.bare, and_assoc]
  rw [if_neg (by simpa using h22)]
  by_cases h5C : c = 0x5C
  · subst h5C
    rw [if_pos (beq_self_eq_true _)]
    simp only [Accepts, Expects, hf, true_and, characters_escape_iff]
    constructor
    · rintro ⟨c, s', v, r, rfl, hv, h⟩
      exact ⟨c :: v, r, ⟨c, s', v, rfl, rfl, hv⟩, h⟩
    · rintro ⟨_, r, ⟨c, s', v, rfl, rfl, hv⟩, h⟩
      exact ⟨c, s', v, r, rfl, hv, h⟩
  · rw [if_neg (by simpa using h5C)]
    simp only [Accepts, Expects, hf, true_and, characters_plain_iff h22 h5C, List.reverse_cons, List.append_assoc,
      List.singleton_append]
    constructor
    · rintro ⟨v, r, hv, h⟩
      exact ⟨c :: v, r, ⟨v, rfl, hv⟩, h⟩
    · rintro ⟨_, r, ⟨v, rfl, hv⟩, h⟩
      exact ⟨v, r, hv, h⟩

/-- **Before a byte a scanner expects what it expects after it.** -/
theorem accepts_step_iff (s : Scanner) (c : UInt8) : Accepts (s.step c) t xs ↔ Accepts s (c :: t) xs := by
  unfold step
  by_cases hf : s.fault.isSome = true
  · rw [if_pos hf]
    constructor <;> intro h <;> simp [h.1] at hf
  rw [if_neg hf]
  replace hf : s.fault = none := by simpa using hf
  -- nothing that is expected depends on the offset
  show Accepts (s.read c) t xs ↔ _
  cases hm : s.mode with
  | blank =>
    rw [read, hm]
    exact accepts_enter_iff (fun _ => hm) c
  | comment => exact accepts_comment_iff hf hm c
  | atom start w => exact accepts_atom_iff hf hm c
  | string start w => exact accepts_string_iff hf hm c
  | escape start w =>
    rw [read, hm]
    simp only [Accepts, hm, Expects, hf, true_and, List.reverse_cons, List.append_assoc, List.singleton_append]
    constructor
    · rintro ⟨v, r, hv, h⟩
      exact ⟨c, t, v, r, rfl, hv, h⟩
    · rintro ⟨_, _, v, r, he, hv, h⟩
      cases he
      exact ⟨v, r, hv, h⟩

/-! ## The end of the text -/

/-- Nothing is expected at the end of the text when only the end of an atom is left to be noticed. -/
theorem accepts_blank_nil_iff (hm : s.fault = none → s.mode = .blank) :
    Accepts s [] xs ↔ s.fault = none ∧ s.frames = [] ∧ Form.bares s.done.reverse = xs := by
  rw [← inside_nil_iff, Accepts]
  refine and_congr_right fun hf => ?_
  rw [hm hf]
  exact Iff.rfl

/-- The end of the text ends an atom. -/
theorem accepts_atom_nil_iff (hf : s.fault = none) {start : Nat} {w : Bytes} (hm : s.mode = .atom start w) :
    Accepts s [] xs ↔ Accepts (s.endAtom start w) [] xs := by
  rw [accepts_endAtom_iff hf]
  simp only [Accepts, Expects, hf, hm, true_and]
  constructor
  · rintro ⟨u, r, x, he, -, -, hx, h⟩
    obtain ⟨rfl, rfl⟩ := List.append_eq_nil_iff.mp he.symm
    exact ⟨x, by simpa using hx, h⟩
  · rintro ⟨x, hx, h⟩
    exact ⟨[], [], x, rfl, by simp, by simp [EndsWord], by simpa using hx, h⟩

theorem closed_iff (s : Scanner) {cause : Cause} :
    (if s.frames.isEmpty then s else s.fail s.offset cause).fault = none ∧
      Form.bares (if s.frames.isEmpty then s else s.fail s.offset cause).done.reverse = xs ↔
    s.fault = none ∧ s.frames = [] ∧ Form.bares s.done.reverse = xs := by
  cases hfr : s.frames with
  | nil => simp
  | cons => simp [fail]

/-- **At the end of the text a scanner expects nothing, and that nothing is open.** -/
theorem accepts_finish_iff (s : Scanner) :
    Accepts s [] xs ↔ s.finish.fault = none ∧ Form.bares s.finish.done.reverse = xs := by
  unfold finish
  by_cases hf : s.fault.isSome = true
  · rw [if_pos hf]
    constructor <;> intro h <;> simp [h.1] at hf
  rw [if_neg hf]
  replace hf : s.fault = none := by simpa using hf
  cases hm : s.mode with
  | blank => rw [accepts_blank_nil_iff (fun _ => hm)]; exact (closed_iff s).symm
  | comment =>
    have hi : Accepts s [] xs ↔ Inside s.done s.frames [] xs := by
      simp [Accepts, Expects, hf, hm, SpaceSet.skipFrom]
    rw [hi, inside_nil_iff]
    refine Iff.trans ?_ (closed_iff s).symm
    simp [hf]
  | atom start w =>
    rw [accepts_atom_nil_iff hf hm, accepts_blank_nil_iff (endAtom_mode start w)]
    dsimp only
    cases hfe : (s.endAtom start w).fault with
    | some f => simp [hfe]
    | none => simpa [hfe] using (closed_iff (s.endAtom start w)).symm
  | string start w =>
    refine iff_of_false ?_ (by simp [fail])
    rw [Accepts, hm]
    rintro ⟨-, v, r, hv, -⟩
    cases hv
  | escape start w =>
    refine iff_of_false ?_ (by simp [fail])
    rw [Accepts, hm]
    rintro ⟨-, c, u, v, r, he, -⟩
    cases he

/-- **A run of the scanner** ends without a fault, and with the forms `xs`, exactly if the text completes what is
open in it to `xs`. -/
theorem accepts_iff (t : Bytes) (s : Scanner) :
    Accepts s t xs ↔ (t.foldl step s).finish.fault = none ∧
      Form.bares (t.foldl step s).finish.done.reverse = xs := by
  induction t generalizing s with
  | nil => exact accepts_finish_iff s
  | cons c t ih => rw [List.foldl_cons, ← ih, accepts_step_iff]

end Scanner

/-! ## Texts and their forms -/

theorem denotes_iff_accepts {text : Bytes} {xs : List Form} :
    Syntax.Denotes text xs ↔ Scanner.Accepts {} text xs := by
  simp [Scanner.Accepts, Scanner.Expects, Syntax.Inside, Syntax.Denotes, Form.bares]

/-- Scanning a text gives the forms that it denotes. -/
theorem scan_iff_denotes (text : Bytes) (xs : List Form) :
    Syntax.Denotes text xs ↔ (scan text).2 = none ∧ Form.bares (scan text).1 = xs := by
  rw [denotes_iff_accepts, Scanner.accepts_iff]
  exact Iff.rfl

@[simp] theorem Source.text_ofText (text : Bytes) : (Source.ofText text).text = text := by
  simp [Source.text, Source.ofText]

theorem Source.readAll_eq_iff (s : Source) (ys : List Form) :
    s.readAll = (ys, none) ↔ (scan s.text).2 = none ∧ (scan s.text).1 = ys := by
  simp only [Source.readAll, Prod.mk.injEq, Option.map_eq_none_iff]
  exact and_comm

/-- **A source is read as the forms that its text denotes**: reading succeeds with forms that are `xs` but for
their spans exactly if the text denotes `xs`; and no text denotes two different sequences of forms. -/
theorem Source.readAll_iff_denotes (s : Source) (xs : List Form) :
    ((∃ ys, s.readAll = (ys, none) ∧ ys.map Form.bare = xs.map Form.bare) ↔
        Syntax.Denotes s.text (xs.map Form.bare)) ∧
      ∀ ys zs, Syntax.Denotes s.text ys → Syntax.Denotes s.text zs → ys = zs := by
  constructor
  · rw [scan_iff_denotes]
    constructor
    · rintro ⟨ys, hys, he⟩
      obtain ⟨hf, rfl⟩ := (Source.readAll_eq_iff s ys).mp hys
      exact ⟨hf, by rw [Form.bares_eq_map, he]⟩
    · rintro ⟨hf, he⟩
      exact ⟨_, (Source.readAll_eq_iff s _).mpr ⟨hf, rfl⟩, by rw [← he, Form.bares_eq_map]⟩
  · intro ys zs hy hz
    exact ((scan_iff_denotes _ _).mp hy).2.symm.trans ((scan_iff_denotes _ _).mp hz).2

/-- A quote mark takes the next datum across blanks, and the end of the text ends a comment. -/
theorem Source.readAll_iff_denotes_quoted_comment :
    Syntax.Denotes (utf8 "' ;\n(a 1);") [Form.quoted (.list .none [.ident .none (utf8 "a"), .int .none 1])] :=
  (Source.readAll_iff_denotes (.ofText (utf8 "' ;\n(a 1);"))
    [Form.quoted (.list .none [.ident .none (utf8 "a"), .int .none 1])]).1.mp ⟨_, rfl, rfl⟩

end RegisterMachine
