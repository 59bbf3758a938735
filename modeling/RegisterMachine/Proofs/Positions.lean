import RegisterMachine.Proofs.Acceptance

/-!
# Positions

An offset in a source is reported as a file, a line and a column.  The file is the first one that reaches to the
offset, so that a byte is reported in its own file unless it is the first byte of a file behind others: that offset
also stands just behind an earlier file, and is reported as the end of it.

* `Position.Behind p name text`: `p` is the place behind `text`, the beginning of a file of that name.
* `Source.position_eq`: the file that is named, and how lines and columns are counted in it.
* `Position.Precedes`: the order of lines, then of columns.  In one file offsets and positions have the same order
  (`Position.behind_precedes`), so that the position tells the offset (`Source.position_ofText_inj`).
-/

namespace RegisterMachine

/-! ## Lines and columns of one text -/

/-- A text cut before its last line: what stands before it is nothing or ends with a line end, and the line has
none. -/
structure LastLine (text lines line : Bytes) : Prop where
  cut : text = lines ++ line
  ended : lines = [] ∨ lines.getLast? = some (byte '\n')
  unbroken : byte '\n' ∉ line

/-- The number of bytes behind the last line end. -/
def columns (text : Bytes) : Nat := (text.reverse.takeWhile (· != byte '\n')).length

theorem exists_lastLine (text : Bytes) : ∃ lines line, LastLine text lines line ∧ columns text = line.length := by
  have hcut := List.takeWhile_append_dropWhile (p := (· != byte '\n')) (l := text.reverse)
  refine ⟨(text.reverse.dropWhile (· != byte '\n')).reverse, (text.reverse.takeWhile (· != byte '\n')).reverse,
    ⟨?_, ?_, ?_⟩, (List.length_reverse ..).symm⟩
  · rw [← List.reverse_append, hcut, List.reverse_reverse]
  · rw [List.getLast?_reverse, List.reverse_eq_nil_iff]
    have hhead := List.head?_dropWhile_not (· != byte '\n') text.reverse
    cases hd : (text.reverse.dropWhile (· != byte '\n')) with
    | nil => exact .inl rfl
    | cons c rest =>
      rw [hd] at hhead
      exact .inr (congrArg some (by simpa using hhead))
  · intro hmem
    have := List.all_eq_true.mp List.all_takeWhile _ (List.mem_reverse.mp hmem)
    simp at this

/-- Within a line the columns count bytes. -/
theorem columns_append (text : Bytes) {line : Bytes} (h : byte '\n' ∉ line) :
    columns (text ++ line) = columns text + line.length := by
  have hline : ∀ c ∈ line.reverse, (c != byte '\n') = true := by
    intro c hc
    have : c ≠ byte '\n' := fun he => h (he ▸ List.mem_reverse.mp hc)
    simpa using this
  rw [columns, List.reverse_append, List.takeWhile_append_of_pos hline, List.length_append, List.length_reverse,
    columns, Nat.add_comm]

namespace Position

/-- The place behind `text`, the beginning of a file: lines and columns are counted from one, a line from behind
the line end before it. -/
structure Behind (p : Position) (name text : Bytes) : Prop where
  name_eq : p.name = name
  line_eq : p.line = 1 + text.count (byte '\n')
  column_eq : ∃ lines line, LastLine text lines line ∧ p.column = 1 + line.length

/-- The position behind the beginning of a file. -/
def behind (name text : Bytes) : Position := ⟨name, 1 + text.count (byte '\n'), 1 + columns text⟩

theorem behind_behind (name text : Bytes) : (behind name text).Behind name text where
  name_eq := rfl
  line_eq := rfl
  column_eq := by
    obtain ⟨lines, line, hl, hc⟩ := exists_lastLine text
    exact ⟨lines, line, hl, congrArg (1 + ·) hc⟩

/-- One position is before another: on an earlier line, or further to the left on the same one. -/
def Precedes (p q : Position) : Prop := p.line < q.line ∨ p.line = q.line ∧ p.column < q.column

theorem Precedes.irrefl (p : Position) : ¬ p.Precedes p := by
  rintro (h | ⟨-, h⟩)
  · exact Nat.lt_irrefl _ h
  · exact Nat.lt_irrefl _ h

/-- **Positions go on with the text**: a longer beginning of a file ends at a later position. -/
theorem behind_precedes (name text : Bytes) {more : Bytes} (hne : more ≠ []) :
    (behind name text).Precedes (behind name (text ++ more)) := by
  have hcount : (text ++ more).count (byte '\n') = text.count (byte '\n') + more.count (byte '\n') :=
    List.count_append ..
  by_cases hm : byte '\n' ∈ more
  · left
    show 1 + text.count _ < 1 + (text ++ more).count _
    have := List.count_pos_iff.mpr hm
    omega
  · right
    have hzero : more.count (byte '\n') = 0 := List.count_eq_zero.mpr hm
    have hlen := List.length_pos_iff.mpr hne
    refine ⟨?_, ?_⟩
    · show 1 + text.count _ = 1 + (text ++ more).count _
      omega
    · show 1 + columns text < 1 + columns (text ++ more)
      rw [columns_append text hm]
      omega

theorem behind_take_precedes (name : Bytes) {text : Bytes} {i j : Nat} (hij : i < j) (hj : j ≤ text.length) :
    (behind name (text.take i)).Precedes (behind name (text.take j)) := by
  have hsplit : text.take j = text.take i ++ (text.take j).drop i := by
    have := (List.take_append_drop i (text.take j)).symm
    rwa [List.take_take, Nat.min_eq_left (Nat.le_of_lt hij)] at this
  rw [hsplit]
  refine behind_precedes name _ (List.length_pos_iff.mp ?_)
  rw [List.length_drop, List.length_take]
  omega

end Position

namespace Source

/-! ## The file of an offset -/

@[simp] theorem text_cons (f : SourceFile) (s : Source) : text (f :: s) = f.text ++ text s := rfl

theorem text_append (s t : Source) : text (s ++ t) = s.text ++ t.text := by
  simp [text]

/-- The file `f` behind the files `before` is the first one that reaches to the offset: those before it end before
the offset. -/
structure FirstToReach (before : Source) (f : SourceFile) (offset : Nat) : Prop where
  first : before = [] ∨ before.text.length < offset
  reaches : offset ≤ before.text.length + f.text.length

theorem fileAt?_first {before : Source} {f : SourceFile} {offset base : Nat}
    (hfirst : before = [] ∧ base ≤ offset ∨ base + before.text.length < offset)
    (hreach : offset ≤ base + before.text.length + f.text.length) (after : Source) :
    fileAt? offset base (before ++ f :: after) = some (f.name, base + before.text.length) := by
  induction before generalizing base with
  | nil =>
    have hbase : base ≤ offset := by
      rcases hfirst with ⟨-, h⟩ | h
      · exact h
      · exact Nat.le_of_lt (Nat.lt_of_le_of_lt (Nat.le_add_right ..) h)
    exact if_pos ⟨hbase, hreach⟩
  | cons g before ih =>
    have hlt : base + (g.text ++ text before).length < offset := by
      rcases hfirst with ⟨h, -⟩ | h
      · cases h
      · exact h
    rw [List.length_append, ← Nat.add_assoc] at hlt
    rw [text_cons, List.length_append, ← Nat.add_assoc] at hreach ⊢
    rw [List.cons_append, fileAt?, if_neg (by omega)]
    exact ih (.inr hlt) hreach

theorem exists_firstToReach {s : Source} (hne : s ≠ []) {offset : Nat} (h : offset ≤ s.text.length) :
    ∃ before f after, s = before ++ f :: after ∧ FirstToReach before f offset := by
  induction s generalizing offset with
  | nil => exact absurd rfl hne
  | cons f s ih =>
    by_cases hf : offset ≤ f.text.length
    · exact ⟨[], f, s, rfl, .inl rfl, by simpa [text] using hf⟩
    · rw [text_cons, List.length_append] at h
      have hs : s ≠ [] := by
        rintro rfl
        exact hf (by simpa [text] using h)
      have hrest : offset - f.text.length ≤ (text s).length := by omega
      obtain ⟨before, g, after, rfl, hg⟩ := ih hs hrest
      have hreach := hg.reaches
      refine ⟨f :: before, g, after, rfl, .inr ?_, ?_⟩
      · rw [text_cons, List.length_append]
        rcases hg.first with rfl | hlt
        · simpa [text] using hf
        · omega
      · rw [text_cons, List.length_append]
        omega

/-- **The position of an offset** is counted in the first file that reaches to it. -/
theorem position_eq {before : Source} {f : SourceFile} {offset : Nat} (h : FirstToReach before f offset)
    (after : Source) : position (before ++ f :: after) offset =
      .behind f.name (f.text.take (offset - before.text.length)) := by
  have hfirst : before = [] ∧ 0 ≤ offset ∨ 0 + before.text.length < offset := by
    rcases h.first with hb | hlt
    · exact .inl ⟨hb, Nat.zero_le _⟩
    · exact .inr (by omega)
  have hfile := fileAt?_first hfirst (f := f) (by have := h.reaches; omega) after
  have htext : ((text (before ++ f :: after)).take offset).drop before.text.length =
      f.text.take (offset - before.text.length) := by
    have hreach := h.reaches
    rw [text_append, text_cons, List.drop_take, List.drop_left, List.take_append_of_le_length (by omega)]
  rw [position, hfile]
  simp only [Option.getD_some, Nat.zero_add, htext]
  rfl

theorem position_ofText {t : Bytes} {offset : Nat} (h : offset ≤ t.length) :
    (ofText t).position offset = .behind [] (t.take offset) := by
  have hfirst : FirstToReach [] ⟨[], t⟩ offset := ⟨.inl rfl, by simpa [text] using h⟩
  exact position_eq hfirst []

/-- The position in a single text tells the offset. -/
theorem position_ofText_inj {t : Bytes} {i j : Nat} (hi : i ≤ t.length) (hj : j ≤ t.length)
    (h : (ofText t).position i = (ofText t).position j) : i = j := by
  rw [position_ofText hi, position_ofText hj] at h
  rcases Nat.lt_trichotomy i j with hlt | he | hlt
  · exact absurd (h ▸ Position.behind_take_precedes [] hlt hj) (Position.Precedes.irrefl _)
  · exact he
  · exact absurd (h ▸ Position.behind_take_precedes [] hlt hi) (Position.Precedes.irrefl _)

/-- A position does not depend on the text behind it. -/
theorem position_ofText_append {t : Bytes} {offset : Nat} (h : offset ≤ t.length) (more : Bytes) :
    (ofText (t ++ more)).position offset = (ofText t).position offset := by
  rw [position_ofText h, position_ofText (by rw [List.length_append]; omega), List.take_append_of_le_length h]

/-! ## Bytes of a file -/

variable {before after : Source} {f : SourceFile} {offset : Nat}

/-- The offset is that of a byte of the file `f`, which stands behind the files `before`. -/
def OnByte (before : Source) (f : SourceFile) (offset : Nat) : Prop :=
  before.text.length ≤ offset ∧ offset < before.text.length + f.text.length

/-- The first byte of a file behind other files: the offset is also the end of a file before it. -/
def OnSeam (before : Source) (offset : Nat) : Prop := before ≠ [] ∧ offset = before.text.length

theorem OnByte.firstToReach (h : OnByte before f offset) (hs : ¬ OnSeam before offset) :
    FirstToReach before f offset where
  first := by
    by_cases hb : before = []
    · exact .inl hb
    · exact .inr (Nat.lt_of_le_of_ne h.1 fun he => hs ⟨hb, he.symm⟩)
  reaches := Nat.le_of_lt h.2

/-- On a seam the offset is behind the whole of the first file that ends there. -/
theorem OnSeam.position (h : OnSeam before offset) (after : Source) : ∃ files g between,
    before = files ++ g :: between ∧ FirstToReach files g offset ∧ offset = files.text.length + g.text.length ∧
      Source.position (before ++ after) offset = .behind g.name g.text := by
  obtain ⟨hne, rfl⟩ := h
  obtain ⟨files, g, between, rfl, hg⟩ := exists_firstToReach hne (Nat.le_refl before.text.length)
  have hend : (text (files ++ g :: between)).length = files.text.length + g.text.length := by
    have hreach := hg.reaches
    rw [text_append, text_cons, List.length_append, List.length_append] at hreach ⊢
    omega
  refine ⟨files, g, between, rfl, hg, hend, ?_⟩
  rw [List.append_assoc, List.cons_append, position_eq hg, hend, Nat.add_sub_cancel_left, List.take_length]

/-- **The position of a byte** names the file that holds it, the line by the line ends before it in that file and
the column by the bytes since the last of them, and positions have the order of the bytes; all this unless the byte
is the first one of a file behind others.  That byte is reported as the end of the first file that ends there. -/
theorem position_of_byte (h : OnByte before f offset) :
    (¬ OnSeam before offset →
      (position (before ++ f :: after) offset).Behind f.name (f.text.take (offset - before.text.length)) ∧
      ∀ later, offset < later → OnByte before f later →
        (position (before ++ f :: after) later).name = (position (before ++ f :: after) offset).name ∧
        (position (before ++ f :: after) offset).Precedes (position (before ++ f :: after) later)) ∧
    (OnSeam before offset → ∃ files g between, before = files ++ g :: between ∧ FirstToReach files g offset ∧
      offset = files.text.length + g.text.length ∧
      (position (before ++ f :: after) offset).Behind g.name g.text) := by
  constructor
  · intro hs
    rw [position_eq (h.firstToReach hs)]
    refine ⟨Position.behind_behind .., fun later hlt hl => ?_⟩
    have hs' : ¬ OnSeam before later := by
      rintro ⟨-, he⟩
      have := h.1
      omega
    rw [position_eq (hl.firstToReach hs')]
    have := h.1
    have := hl.2
    exact ⟨rfl, Position.behind_take_precedes f.name (by omega) (by omega)⟩
  · intro hs
    obtain ⟨files, g, between, hb, hg, hend, hpos⟩ := hs.position (f :: after)
    exact ⟨files, g, between, hb, hg, hend, hpos ▸ Position.behind_behind ..⟩

/-- The second byte of a file that starts with a line end, behind a file without one. -/
theorem position_of_byte_second_line :
    OnByte [⟨utf8 "a", utf8 "x"⟩] ⟨utf8 "b", utf8 "\nyz"⟩ 2 ∧ ¬ OnSeam [⟨utf8 "a", utf8 "x"⟩] 2 ∧
      (position [⟨utf8 "a", utf8 "x"⟩, ⟨utf8 "b", utf8 "\nyz"⟩] 2).Behind (utf8 "b") (utf8 "\n") := by
  have h : OnByte [⟨utf8 "a", utf8 "x"⟩] ⟨utf8 "b", utf8 "\nyz"⟩ 2 := ⟨by decide, by decide⟩
  have hs : ¬ OnSeam [⟨utf8 "a", utf8 "x"⟩] 2 := fun hs => absurd hs.2 (by decide)
  exact ⟨h, hs, (((position_of_byte h).1 hs).1 : (position (_ ++ _ :: []) 2).Behind _ _)⟩

/-- **The first byte of a second file is reported in the first one**: the bracket is the byte at offset 1, which
file `b` holds, and its position is in file `a`. -/
theorem position_on_seam :
    OnByte [⟨utf8 "a", utf8 "x"⟩] ⟨utf8 "b", utf8 ")"⟩ 1 ∧
      position [⟨utf8 "a", utf8 "x"⟩, ⟨utf8 "b", utf8 ")"⟩] 1 = ⟨utf8 "a", 1, 2⟩ ∧
      ¬ (position [⟨utf8 "a", utf8 "x"⟩, ⟨utf8 "b", utf8 ")"⟩] 1).Behind (utf8 "b") [] := by
  refine ⟨⟨by decide, by decide⟩, by decide, fun h => ?_⟩
  exact absurd h.name_eq (by decide)

end Source

end RegisterMachine
