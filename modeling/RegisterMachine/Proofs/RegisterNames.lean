import RegisterMachine.Description.Basic
import RegisterMachine.Proofs.FormKinds
import RegisterMachine.Proofs.Printing

/-!
# Register names

A description is checked for names that no controller can use, by bytes that may not occur in them.  A controller
is read by other rules: what ends a name, what is a number, and which bytes are characters.

* `Scanner.next_word`, `Grammar.read_word`: a text without delimiters is read as what its atom is.
* `isDelimiter_iff`: the bytes that end a name are those that a description forbids and three more.
* `Grammar.read_name_iff`: a text is read as the identifier of itself exactly if it is a name.
* `Description.register_named_iff`: when a register that passes the check can be named.
-/

namespace RegisterMachine

open Syntax

/-! ## Texts that are one word -/

theorem Scanner.next_word {offset : Nat} {w : Bytes} (hne : w ≠ [])
    (hw : ∀ c ∈ w, isDelimiter c = false) {x : Form}
    (hx : atom offset w = .ok x) : Scanner.next { offset := offset } w = .ok (x, []) := by
  have hword : ∀ c ∈ w, (!isDelimiter c) = true := fun c hc => by rw [hw c hc]; rfl
  have htext : atomText w = w := List.takeWhile_eq_self_iff.mpr hword
  have hafter : afterAtom w = [] := List.dropWhile_eq_nil_iff.mpr hword
  cases w with
  | nil => exact absurd rfl hne
  | cons c w =>
    rw [next_nondelimiter (hw c List.mem_cons_self), htext, hafter, wordOutcome, hx]

theorem Grammar.read_word {offset : Nat} {w : Bytes} (hne : w ≠ [])
    (hw : ∀ c ∈ w, isDelimiter c = false) {x : Form}
    (hx : RegisterMachine.atom offset w = .ok x) : Grammar.read .form offset w = .ok (x, []) := by
  rw [Grammar.read, Scanner.next_word hne hw hx]

/-! ## Names -/

theorem isSpace_iff (c : UInt8) : isSpace c = true ↔ c ∈ [0x20, 0x09, 0x0A, 0x0B, 0x0C, 0x0D] := by
  have h : ∀ n < 256, isSpace (UInt8.ofNat n) = true ↔ UInt8.ofNat n ∈ [0x20, 0x09, 0x0A, 0x0B, 0x0C, 0x0D] := by
    decide +kernel
  simpa using h c.toNat c.toNat_lt

/-- The vertical tab, the form feed and the carriage return: spaces that a description allows in names. -/
def allowedSpaces : Bytes := [0x0B, 0x0C, 0x0D]

theorem isDelimiter_iff (c : UInt8) : isDelimiter c = true ↔ c ∈ forbiddenInName ∨ c ∈ allowedSpaces := by
  simp only [isDelimiter, Bool.or_eq_true, beq_iff_eq, isSpace_iff, forbiddenInName, allowedSpaces, List.mem_cons,
    List.not_mem_nil, or_false]
  grind

/-- **A text is read as the identifier of itself exactly if it is a name**: it has no delimiter in it, it is no
number, and its bytes are characters. -/
theorem Grammar.read_name_iff {w : Bytes} :
    (∃ span, Grammar.read .form 0 w = .ok (.ident span w, [])) ↔
      w ≠ [] ∧ (∀ c ∈ w, isDelimiter c = false) ∧ number? (spanOf 0 w) w = none ∧ validUtf8 w = true := by
  constructor
  · rintro ⟨span, h⟩
    have hname : IsName w := ⟨span, by rw [Source.readOne, Source.text_ofText, h]; rfl⟩
    obtain ⟨hne, hw, hword⟩ := isName_iff.mp hname
    refine ⟨hne, hw, ?_⟩
    cases hword with
    | number hx => rcases number?_kind hx with ⟨n, he⟩ | ⟨v, he, -⟩ <;> cases he
    | ident t hn ht =>
      rw [← number?_bare (spanOf 0 w), Option.map_eq_none_iff] at hn
      exact ⟨hn, by rw [validUtf8, badRune?_eq_none_iff.mpr ⟨t, ht⟩]; rfl⟩
  · rintro ⟨hne, hw, hn, hvalid⟩
    refine ⟨spanOf 0 w, Grammar.read_word hne hw ?_⟩
    rw [RegisterMachine.atom, hn, Option.isNone_iff_eq_none.mp hvalid]

namespace Description

theorem not_forbidden {before names : List Bytes} {name : Bytes} (hn : name ∈ names)
    (h : Problem.badRegister name ∉ registerProblems before names) :
    name ≠ [] ∧ ∀ c ∈ name, c ∉ forbiddenInName := by
  induction names generalizing before with
  | nil => cases hn
  | cons first rest ih =>
    rw [registerProblems, List.mem_append, not_or] at h
    rcases List.mem_cons.mp hn with rfl | hn
    · have hfirst : ¬ (name.isEmpty || name.any forbiddenInName.contains) = true := by
        intro hbad
        refine h.1 ?_
        rw [registerProblem?, if_pos hbad]
        exact List.mem_singleton_self _
      simpa [not_or] using hfirst
    · exact ih hn h.2

/-- **When a register that passes the check can be named in a controller.**  Read as a form, its name is the
identifier of that name, with nothing left over, exactly if it has none of the spaces that the check does not look
for, is no number, and is made of characters. -/
theorem register_named_iff {d : Description} {known : Option (Bytes → Bool)} {r : Bytes} (hr : r ∈ d.registers)
    (hp : Problem.badRegister r ∉ d.problems known) :
    (∃ span, Grammar.read .form 0 r = .ok (.ident span r, [])) ↔
      (∀ c ∈ r, c ∉ allowedSpaces) ∧ number? (spanOf 0 r) r = none ∧ validUtf8 r = true := by
  have hproblems : Problem.badRegister r ∉ registerProblems [] d.registers := by
    intro hbad
    refine hp ?_
    rw [problems]
    simp [hbad]
  obtain ⟨hne, hforbidden⟩ := not_forbidden hr hproblems
  have hdelimiter : (∀ c ∈ r, isDelimiter c = false) ↔ ∀ c ∈ r, c ∉ allowedSpaces := by
    refine forall₂_congr fun c hc => ?_
    rw [Bool.eq_false_iff, ne_eq, isDelimiter_iff, or_iff_right (hforbidden c hc)]
  rw [Grammar.read_name_iff, hdelimiter]
  exact and_iff_right hne

/-- Of a description that consists of registers and a controller text, only the registers can be wrong. -/
theorem problems_registers (registers : List Bytes) (known : Option (Bytes → Bool)) :
    ({ registers, source := utf8 "(done)" } : Description).problems known = registerProblems [] registers := by
  have hcontroller : ({ registers, source := utf8 "(done)" } : Description).controllerProblem? = none := rfl
  have hoperations : (known.map { registers, source := utf8 "(done)" : Description }.operationProblems).getD [] =
      [] := by
    cases known <;> rfl
  have hmentions : ({ registers, source := utf8 "(done)" } : Description).mentionProblems = [] := by
    simp [mentionProblems, sortBytes]
  rw [problems, hcontroller, hoperations, hmentions]
  simp

/-- A name that starts like a number and goes on with a character of two bytes. -/
theorem register_named_iff_digit_first : ∃ d : Description,
    utf8 "2π" ∈ d.registers ∧ d.problems none = [] ∧
    ∃ span, Grammar.read .form 0 (utf8 "2π") = .ok (.ident span (utf8 "2π"), []) := by
  let d : Description := { registers := [utf8 "n", utf8 "2π"], source := utf8 "(done)" }
  have hr : utf8 "2π" ∈ d.registers := by simp [d]
  have hp : d.problems none = [] := (problems_registers _ none).trans rfl
  have hspaces : ∀ c ∈ utf8 "2π", c ∉ allowedSpaces := by
    rw [show utf8 "2π" = [0x32, 0xCF, 0x80] from rfl]
    simp [allowedSpaces]
  exact ⟨d, hr, hp, (register_named_iff hr (by rw [hp]; exact List.not_mem_nil)).mpr ⟨hspaces, rfl, rfl⟩⟩

/-- Three registers that pass the check together and cannot be named: one is cut at a carriage return, one is read
as a number, and one is not read at all. -/
theorem registers_not_named : ∃ d : Description,
    d.registers = [utf8 "a\rb", utf8 "12", [0xFF]] ∧ (∀ known, d.problems known = []) ∧
    Grammar.read .form 0 (utf8 "a\rb") = .ok (.ident ⟨0, 1⟩ (utf8 "a"), utf8 "\rb") ∧
    Grammar.read .form 0 (utf8 "12") = .ok (.int ⟨0, 2⟩ 12, []) ∧
    Grammar.read .form 0 [0xFF] = .error (0, .expected Grammar.formAlternatives) :=
  ⟨{ registers := [utf8 "a\rb", utf8 "12", [0xFF]], source := utf8 "(done)" }, rfl,
    fun known => (problems_registers _ known).trans rfl, rfl, rfl, rfl⟩

end Description

end RegisterMachine
