import RegisterMachine.Form.Scanner

/-!
# The syntax of controller text

Which texts denote which forms, as inference rules.  A rule relates a text to a form and to what is left of the
text behind it, so that "up to the end of the line" and "as far as the run of bytes goes" are conditions on the
rest.

* `Form.bare`: the form without its spans.
* `Syntax.Blanks s r`: spaces and comments lead from `s` to `r`.
* `Syntax.Characters`, `Syntax.Word`: the inside of a string, and what a run of bytes between delimiters denotes.
* `Syntax.Datum s x r`, `Syntax.Data s xs r`: `s` starts with a text of the form `x`, or of the forms `xs`, before
  `r`.
* `Syntax.Denotes text xs`: the whole text denotes `xs`.

The other half of the module inverts the rules: what the first byte of a text tells about its derivations.
-/

namespace RegisterMachine

/-! ## Forms without spans -/

/-- The span of a form that stands in no text. -/
def Span.none : Span := ⟨0, 0⟩

namespace Form

mutual

/-- The form without its spans. -/
def bare : Form → Form
  | ident _ name => ident .none name
  | int _ n => int .none n
  | float _ x => float .none x
  | string _ s => string .none s
  | list _ items => list .none (bares items)
  | missing => missing

/-- The forms without their spans. -/
def bares : List Form → List Form
  | [] => []
  | x :: rest => x.bare :: bares rest

end

theorem bares_eq_map (xs : List Form) : bares xs = xs.map bare := by
  induction xs with
  | nil => rfl
  | cons x xs ih => rw [bares, ih, List.map_cons]

@[simp] theorem bares_append (xs ys : List Form) : bares (xs ++ ys) = bares xs ++ bares ys := by
  simp only [bares_eq_map, List.map_append]

/-- The list `(quote x)`, which stands for `x` behind a quote mark. -/
def quoted (x : Form) : Form := list .none [ident .none quoteWord, x]

end Form

namespace Syntax

/-! ## The rules -/

/-- A text that ends a comment: none, or one that starts with a line feed. -/
def EndsLine (r : Bytes) : Prop := ∀ c ∈ r.head?, c = byte '\n'

/-- A text that ends a run of other bytes: none, or one that starts with a delimiter. -/
def EndsWord (r : Bytes) : Prop := ∀ c ∈ r.head?, isDelimiter c = true

/-- Spaces and comments lead from one text to another. -/
inductive Blanks : Bytes → Bytes → Prop
  | nil {s : Bytes} : Blanks s s
  | space {c : UInt8} {s r : Bytes} : isSpace c = true → Blanks s r → Blanks (c :: s) r
  | comment {u s r : Bytes} : (∀ c ∈ u, c ≠ byte '\n') → EndsLine s → Blanks s r → Blanks (byte ';' :: (u ++ s)) r

/-- The inside of a string up to its closing quote: a backslash makes the next byte literal. -/
inductive Characters : Bytes → Bytes → Bytes → Prop
  | close {r : Bytes} : Characters (0x22 :: r) [] r
  | escaped {c : UInt8} {s v r : Bytes} : Characters s v r → Characters (0x5C :: c :: s) (c :: v) r
  | plain {c : UInt8} {s v r : Bytes} : c ≠ 0x22 → c ≠ 0x5C → Characters s v r → Characters (c :: s) (c :: v) r

/-- What a run of bytes denotes: the number that it is the text of, else the identifier of that name, provided that
it is the text of characters. -/
inductive Word (w : Bytes) : Form → Prop
  | number {x : Form} : number? .none w = some x → Word w x
  | ident (t : String) : number? .none w = none → w = utf8 t → Word w (.ident .none w)

mutual

/-- The text starts with a datum. -/
inductive Datum : Bytes → Form → Bytes → Prop
  | list {s : Bytes} {xs : List Form} {r : Bytes} :
      Data s xs (0x29 :: r) → Datum (0x28 :: s) (.list .none xs) r
  | quote {s t : Bytes} {x : Form} {r : Bytes} :
      Blanks s t → Datum t x r → Datum (0x27 :: s) x.quoted r
  | string {s v r : Bytes} :
      Characters s v r → Datum (0x22 :: s) (.string .none v) r
  | word {w : Bytes} {x : Form} {r : Bytes} :
      w ≠ [] → (∀ c ∈ w, isDelimiter c = false) → EndsWord r → Word w x → Datum (w ++ r) x r

/-- The text starts with data, blanks around and between them. -/
inductive Data : Bytes → List Form → Bytes → Prop
  | nil {s r : Bytes} : Blanks s r → Data s [] r
  | cons {s t u : Bytes} {x : Form} {xs : List Form} {r : Bytes} :
      Blanks s t → Datum t x u → Data u xs r → Data s (x :: xs) r

end

/-- The whole text denotes these forms. -/
def Denotes (text : Bytes) (xs : List Form) : Prop := Data text xs []

/-! ## Blanks

Blanks lead as far as `SpaceSet.skipBlanks` goes, provided that they end where neither a space nor a comment
starts. -/

/-- No blank starts here. -/
def Solid (s : Bytes) : Prop := SpaceSet.all.skipBlanks s = s

theorem skipFrom_comment {u s : Bytes} (hu : ∀ c ∈ u, c ≠ byte '\n') :
    SpaceSet.all.skipFrom true (u ++ s) = SpaceSet.all.skipFrom true s := by
  induction u with
  | nil => rfl
  | cons c u ih =>
    obtain ⟨hc, hu⟩ := List.forall_mem_cons.mp hu
    rw [List.cons_append, SpaceSet.skipFrom, if_pos (by simpa using hc), ih hu]

theorem skipFrom_endsLine {s : Bytes} (hs : EndsLine s) :
    SpaceSet.all.skipFrom true s = SpaceSet.all.skipBlanks s := by
  cases s with
  | nil => rfl
  | cons c s =>
    obtain rfl : c = byte '\n' := hs c rfl
    rfl

theorem skipBlanks_space {c : UInt8} {s : Bytes} (hc : isSpace c = true) :
    SpaceSet.all.skipBlanks (c :: s) = SpaceSet.all.skipBlanks s := by
  rw [SpaceSet.skipBlanks, SpaceSet.skipFrom, if_neg (by simp)]
  exact if_pos hc

theorem skipBlanks_solid {c : UInt8} {s : Bytes} (hc : isSpace c = false) (hs : c ≠ byte ';') :
    Solid (c :: s) := by
  rw [Solid, SpaceSet.skipBlanks, SpaceSet.skipFrom, if_neg (by simp), if_neg, if_neg (by simpa using hs)]
  simpa [isSpace] using hc

theorem Blanks.skipBlanks_eq {s r : Bytes} (h : Blanks s r) :
    SpaceSet.all.skipBlanks s = SpaceSet.all.skipBlanks r := by
  induction h with
  | nil => rfl
  | space hc _ ih => rw [skipBlanks_space hc, ih]
  | comment hu hs _ ih =>
    rw [← ih, ← skipFrom_endsLine hs, ← skipFrom_comment hu]
    rfl

theorem Blanks.trans {s t r : Bytes} (h₁ : Blanks s t) (h₂ : Blanks t r) : Blanks s r := by
  induction h₁ with
  | nil => exact h₂
  | space hc _ ih => exact .space hc (ih h₂)
  | comment hu hs _ ih => exact .comment hu hs (ih h₂)

theorem exists_comment (s : Bytes) :
    ∃ u r, s = u ++ r ∧ (∀ c ∈ u, c ≠ byte '\n') ∧ EndsLine r ∧ r.length ≤ s.length := by
  induction s with
  | nil => exact ⟨[], [], rfl, by simp, by simp [EndsLine], Nat.le_refl _⟩
  | cons c s ih =>
    by_cases hc : c = byte '\n'
    · exact ⟨[], c :: s, rfl, by simp, by simp [EndsLine, hc], Nat.le_refl _⟩
    · obtain ⟨u, r, rfl, hu, hr, hl⟩ := ih
      exact ⟨c :: u, r, rfl, List.forall_mem_cons.mpr ⟨hc, hu⟩, hr, Nat.le_succ_of_le hl⟩

/-- What the function skips are blanks. -/
theorem blanks_skipBlanks (s : Bytes) : Blanks s (SpaceSet.all.skipBlanks s) := by
  induction hn : s.length using Nat.strongRecOn generalizing s with
  | ind n ih =>
    cases s with
    | nil => exact .nil
    | cons c s =>
      by_cases hc : isSpace c = true
      · rw [skipBlanks_space hc]
        exact .space hc (ih s.length (by simp at hn; omega) s rfl)
      by_cases hs : c = byte ';'
      · subst hs
        obtain ⟨u, r, rfl, hu, hr, hl⟩ := exists_comment s
        have hb : Blanks (byte ';' :: (u ++ r)) r := .comment hu hr .nil
        rw [hb.skipBlanks_eq]
        exact hb.trans (ih r.length (by simp at hn hl; omega) r rfl)
      · rw [skipBlanks_solid (by simpa using hc) hs]
        exact .nil

/-! ## What the first byte tells -/

theorem not_delimiter {c : UInt8} (h : isDelimiter c = false) :
    isSpace c = false ∧ c ≠ 0x28 ∧ c ≠ 0x29 ∧ c ≠ 0x22 ∧ c ≠ 0x27 ∧ c ≠ byte ';' := by
  simp only [isDelimiter, Bool.or_eq_false_iff, beq_eq_false_iff_ne] at h
  exact ⟨h.2, h.1.1.1.1.1, h.1.1.1.1.2, h.1.1.1.2, h.1.1.2, h.1.2⟩

theorem Datum.inv {t : Bytes} {x : Form} {r : Bytes} (h : Datum t x r) :
    (∃ s xs, t = 0x28 :: s ∧ x = .list .none xs ∧ Data s xs (0x29 :: r)) ∨
    (∃ s u y, t = 0x27 :: s ∧ x = y.quoted ∧ Blanks s u ∧ Datum u y r) ∨
    (∃ s v, t = 0x22 :: s ∧ x = .string .none v ∧ Characters s v r) ∨
    (∃ c u, t = c :: (u ++ r) ∧ isDelimiter c = false ∧ (∀ d ∈ u, isDelimiter d = false) ∧ EndsWord r ∧
      Word (c :: u) x) := by
  cases h with
  | list h => exact .inl ⟨_, _, rfl, rfl, h⟩
  | quote hb h => exact .inr (.inl ⟨_, _, _, rfl, rfl, hb, h⟩)
  | string h => exact .inr (.inr (.inl ⟨_, _, rfl, rfl, h⟩))
  | @word w x r hw hd hr hx =>
    cases w with
    | nil => exact absurd rfl hw
    | cons c u =>
      obtain ⟨hc, hu⟩ := List.forall_mem_cons.mp hd
      exact .inr (.inr (.inr ⟨c, u, rfl, hc, hu, hr, hx⟩))

theorem Datum.solid {t : Bytes} {x : Form} {r : Bytes} (h : Datum t x r) : Solid t := by
  rcases h.inv with ⟨s, xs, rfl, -⟩ | ⟨s, u, y, rfl, -⟩ | ⟨s, v, rfl, -⟩ | ⟨c, u, rfl, hc, -⟩
  · exact skipBlanks_solid rfl (by decide)
  · exact skipBlanks_solid rfl (by decide)
  · exact skipBlanks_solid rfl (by decide)
  · exact skipBlanks_solid (not_delimiter hc).1 (not_delimiter hc).2.2.2.2.2

theorem Datum.ne_nil {x : Form} {r : Bytes} : ¬ Datum [] x r := by
  intro h
  rcases h.inv with ⟨s, xs, he, -⟩ | ⟨s, u, y, he, -⟩ | ⟨s, v, he, -⟩ | ⟨c, u, he, -⟩ <;> cases he

theorem Datum.ne_close {s : Bytes} {x : Form} {r : Bytes} : ¬ Datum (0x29 :: s) x r := by
  intro h
  rcases h.inv with ⟨s, xs, he, -⟩ | ⟨s, u, y, he, -⟩ | ⟨s, v, he, -⟩ | ⟨c, u, he, hc, -⟩
  · cases he
  · cases he
  · cases he
  · exact (not_delimiter hc).2.2.1 (List.cons.inj he).1.symm

theorem datum_open_iff {s : Bytes} {x : Form} {r : Bytes} :
    Datum (0x28 :: s) x r ↔ ∃ xs, x = .list .none xs ∧ Data s xs (0x29 :: r) := by
  constructor
  · intro h
    rcases h.inv with ⟨s, xs, he, rfl, hd⟩ | ⟨s, u, y, he, -⟩ | ⟨s, v, he, -⟩ | ⟨c, u, he, hc, -⟩
    · cases he
      exact ⟨xs, rfl, hd⟩
    · cases he
    · cases he
    · exact absurd (List.cons.inj he).1.symm (not_delimiter hc).2.1
  · rintro ⟨xs, rfl, hd⟩
    exact .list hd

theorem datum_quote_iff {s : Bytes} {x : Form} {r : Bytes} :
    Datum (0x27 :: s) x r ↔ ∃ y, x = y.quoted ∧ Datum (SpaceSet.all.skipBlanks s) y r := by
  constructor
  · intro h
    rcases h.inv with ⟨s, xs, he, -⟩ | ⟨s, u, y, he, rfl, hb, hd⟩ | ⟨s, v, he, -⟩ | ⟨c, u, he, hc, -⟩
    · cases he
    · cases he
      refine ⟨y, rfl, ?_⟩
      rwa [hb.skipBlanks_eq, hd.solid]
    · cases he
    · exact absurd (List.cons.inj he).1.symm (not_delimiter hc).2.2.2.2.1
  · rintro ⟨y, rfl, hd⟩
    exact .quote (blanks_skipBlanks s) hd

theorem datum_string_iff {s : Bytes} {x : Form} {r : Bytes} :
    Datum (0x22 :: s) x r ↔ ∃ v, x = .string .none v ∧ Characters s v r := by
  constructor
  · intro h
    rcases h.inv with ⟨s, xs, he, -⟩ | ⟨s, u, y, he, -⟩ | ⟨s, v, he, rfl, hs⟩ | ⟨c, u, he, hc, -⟩
    · cases he
    · cases he
    · cases he
      exact ⟨v, rfl, hs⟩
    · exact absurd (List.cons.inj he).1.symm (not_delimiter hc).2.2.2.1
  · rintro ⟨v, rfl, hs⟩
    exact .string hs

theorem datum_word_iff {c : UInt8} {s : Bytes} {x : Form} {r : Bytes} (hc : isDelimiter c = false) :
    Datum (c :: s) x r ↔
      ∃ u, s = u ++ r ∧ (∀ d ∈ u, isDelimiter d = false) ∧ EndsWord r ∧ Word (c :: u) x := by
  obtain ⟨-, h28, -, h22, h27, -⟩ := not_delimiter hc
  constructor
  · intro h
    rcases h.inv with ⟨s, xs, he, -⟩ | ⟨s, u, y, he, -⟩ | ⟨s, v, he, -⟩ | ⟨c, u, he, -, hu, hr, hx⟩
    · exact absurd (List.cons.inj he).1 h28
    · exact absurd (List.cons.inj he).1 h27
    · exact absurd (List.cons.inj he).1 h22
    · cases he
      exact ⟨u, rfl, hu, hr, hx⟩
  · rintro ⟨u, rfl, hu, hr, hx⟩
    exact .word (w := c :: u) (by simp) (List.forall_mem_cons.mpr ⟨hc, hu⟩) hr hx

theorem characters_close_iff {s v r : Bytes} : Characters (0x22 :: s) v r ↔ v = [] ∧ s = r := by
  constructor
  · intro h
    cases h with
    | close => exact ⟨rfl, rfl⟩
    | plain h => exact absurd rfl h
  · rintro ⟨rfl, rfl⟩
    exact .close

theorem characters_escape_iff {s v r : Bytes} :
    Characters (0x5C :: s) v r ↔ ∃ c t u, s = c :: t ∧ v = c :: u ∧ Characters t u r := by
  constructor
  · intro h
    cases h with
    | escaped h => exact ⟨_, _, _, rfl, rfl, h⟩
    | plain _ h => exact absurd rfl h
  · rintro ⟨c, t, u, rfl, rfl, h⟩
    exact .escaped h

theorem characters_plain_iff {c : UInt8} {s v r : Bytes} (h22 : c ≠ 0x22) (h5C : c ≠ 0x5C) :
    Characters (c :: s) v r ↔ ∃ u, v = c :: u ∧ Characters s u r := by
  constructor
  · intro h
    cases h with
    | close => exact absurd rfl h22
    | escaped => exact absurd rfl h5C
    | plain _ _ h => exact ⟨_, rfl, h⟩
  · rintro ⟨u, rfl, h⟩
    exact .plain h22 h5C h

/-! ## Data before a place where no blank starts -/

theorem data_skipBlanks_iff {s : Bytes} {xs : List Form} {r : Bytes} (hr : Solid r) :
    Data (SpaceSet.all.skipBlanks s) xs r ↔ Data s xs r := by
  constructor
  · intro h
    cases h with
    | nil hb => exact .nil ((blanks_skipBlanks s).trans hb)
    | cons hb hx hxs => exact .cons ((blanks_skipBlanks s).trans hb) hx hxs
  · intro h
    cases h with
    | nil hb =>
      rw [hb.skipBlanks_eq, hr]
      exact .nil .nil
    | cons hb hx hxs =>
      rw [hb.skipBlanks_eq, hx.solid]
      exact .cons .nil hx hxs

/-- Where a datum has to start, one does. -/
theorem data_start_iff {s : Bytes} {xs : List Form} {r : Bytes} (hs : Solid s) (hr : Solid r) (hne : s ≠ r) :
    Data s xs r ↔ ∃ x u ys, xs = x :: ys ∧ Datum s x u ∧ Data u ys r := by
  constructor
  · intro h
    cases h with
    | nil hb => exact absurd (by rw [← hs, hb.skipBlanks_eq, hr]) hne
    | @cons _ t u x ys _ hb hx hxs =>
      have ht : s = t := by rw [← hs, hb.skipBlanks_eq, hx.solid]
      exact ⟨x, u, ys, rfl, ht ▸ hx, hxs⟩
  · rintro ⟨x, u, ys, rfl, hx, hxs⟩
    exact .cons .nil hx hxs

/-- Nothing but the end can follow where the data end. -/
theorem data_end_iff {xs : List Form} {r : Bytes} (hr : Solid r) (hd : ∀ x u, ¬ Datum r x u) :
    Data r xs r ↔ xs = [] := by
  constructor
  · intro h
    cases h with
    | nil => rfl
    | @cons _ t u x ys _ hb hx hxs =>
      have ht : r = t := by rw [← hr, hb.skipBlanks_eq, hx.solid]
      exact absurd (ht ▸ hx) (hd x u)
  · rintro rfl
    exact .nil .nil

end Syntax

end RegisterMachine
