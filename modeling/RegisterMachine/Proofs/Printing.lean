import RegisterMachine.Proofs.FirstForm
import RegisterMachine.Proofs.FloatReading

/-!
# Printed forms read back

* `Form.Readable`: no hole, identifiers that are read as such, finite floats.
* `Spaced`: words with blanks between them; `data_words`: words that are data, with blanks between them.
* `Form.datum_text`: the printed form of a readable form is, before any text that ends a word, a datum of that
  form.
* `Scanner.Sound`: a scanner only ever holds readable forms.
* `Form.reads_back`: printing and reading give the form back, and every form that is read can be printed so.
-/

namespace RegisterMachine

open Syntax

/-! ## Readable forms -/

/-- Read on its own, the text `w` is the identifier `w`. -/
def IsName (w : Bytes) : Prop := ∃ span, Source.readOne (.ofText w) .form = (some (.ident span w), none)

/-- A form that can be written down: it has no hole, its identifiers read as identifiers and its floats
are finite. -/
inductive Form.Readable : Form → Prop
  | ident {span : Span} {w : Bytes} : IsName w → Readable (.ident span w)
  | int {span : Span} {n : Int64} : Readable (.int span n)
  | float {span : Span} {x : Float} : x.isFinite = true → Readable (.float span x)
  | string {span : Span} {s : Bytes} : Readable (.string span s)
  | list {span : Span} {items : List Form} : (∀ x ∈ items, Readable x) → Readable (.list span items)

theorem Form.readable_list_iff {span : Span} {items : List Form} :
    (Form.list span items).Readable ↔ ∀ x ∈ items, x.Readable := by
  constructor
  · rintro ⟨⟩
    assumption
  · exact .list

theorem Syntax.Word.ident_eq {w v : Bytes} (h : Word w (.ident .none v)) : v = w := by
  cases h with
  | number h => rcases number?_kind h with ⟨n, hn⟩ | ⟨v, hv, -⟩ <;> [cases hn; cases hv]
  | ident => rfl

/-- A name is a run of bytes that denotes an identifier. -/
theorem isName_iff {w : Bytes} :
    IsName w ↔ w ≠ [] ∧ (∀ c ∈ w, isDelimiter c = false) ∧ Word w (.ident .none w) := by
  have hd := Source.readOne_iff_denotes (.ofText w) (.ident .none w)
  rw [Source.text_ofText] at hd
  constructor
  · rintro ⟨span, h⟩
    have h := hd.mp ⟨_, h, rfl⟩
    cases h with
    | cons _ hx _ =>
      rcases hx.inv with ⟨_, _, -, h, -⟩ | ⟨_, _, _, -, h, -⟩ | ⟨_, _, -, h, -⟩ | ⟨c, u, -, hc, hu, -, hw⟩
      · cases h
      · cases h
      · cases h
      · obtain rfl := hw.ident_eq
        exact ⟨List.cons_ne_nil c u, List.forall_mem_cons.mpr ⟨hc, hu⟩, hw⟩
  · rintro ⟨hne, hc, hw⟩
    have hx : Datum w (.ident .none w) [] := by
      have := Datum.word hne hc (r := []) (by simp [EndsWord]) hw
      rwa [List.append_nil] at this
    obtain ⟨y, hy, hb⟩ := hd.mpr (.cons .nil hx (.nil .nil))
    cases y with
    | ident span v =>
      cases hb
      exact ⟨span, hy⟩
    | _ => cases hb

/-! ## Words with blanks between them -/

/-- A blank: spaces and comments with their line ends, at least one. -/
def Blank (b : Bytes) : Prop := b ≠ [] ∧ ∀ r, Blanks (b ++ r) r

/-- The words in their order, with blanks between them. -/
inductive Spaced : List Bytes → Bytes → Prop
  | nil : Spaced [] []
  | single {w : Bytes} : Spaced [w] w
  | cons {w v : Bytes} {ws : List Bytes} {b t : Bytes} :
      Blank b → Spaced (v :: ws) t → Spaced (w :: v :: ws) (w ++ (b ++ t))

theorem isDelimiter_of_isSpace {c : UInt8} (h : isSpace c = true) : isDelimiter c = true := by
  simp [isDelimiter, h]

/-- A blank ends a word. -/
theorem Blank.endsWord {b : Bytes} (h : Blank b) (r : Bytes) : EndsWord (b ++ r) := by
  obtain ⟨c, b, rfl⟩ := List.exists_cons_of_ne_nil h.1
  have hc : isDelimiter c = true := by
    have hb := h.2 []
    rw [List.append_nil] at hb
    cases hb with
    | space hc _ => exact isDelimiter_of_isSpace hc
    | comment => decide
  simpa [EndsWord] using hc

theorem blank_space : Blank [0x20] := ⟨by simp, fun _ => .space rfl .nil⟩

theorem spaced_join (ws : List Bytes) : Spaced ws (join [0x20] ws) := by
  induction ws with
  | nil => exact .nil
  | cons w ws ih =>
    cases ws with
    | nil => exact .single
    | cons v ws =>
      rw [join, List.append_assoc]
      exact .cons blank_space ih

/-- Things with texts that are data, with blanks between them. -/
theorem data_words {α : Type} {text : α → Bytes} {form : α → Form} {xs : List α}
    (h : ∀ x ∈ xs, ∀ r, EndsWord r → Datum (text x ++ r) (form x) r) {t : Bytes} (ht : Spaced (xs.map text) t)
    (r : Bytes) : Data (t ++ 0x29 :: r) (xs.map form) (0x29 :: r) := by
  induction xs generalizing t with
  | nil =>
    cases ht
    exact .nil .nil
  | cons x xs ih =>
    obtain ⟨hx, hxs⟩ := List.forall_mem_cons.mp h
    cases xs with
    | nil =>
      cases ht
      exact .cons .nil (hx _ (by simp [EndsWord, isDelimiter])) (.nil .nil)
    | cons y ys =>
      cases ht with
      | @cons _ _ _ b u hb hu =>
        rw [List.append_assoc, List.append_assoc]
        refine .cons .nil (hx _ (hb.endsWord _)) ?_
        cases ih hxs hu with
        | cons hb' hy hys => exact .cons ((hb.2 _).trans hb') hy hys

/-! ## Printing -/

namespace Form

theorem characters_stringText (s r : Bytes) :
    Characters (s.flatMap (fun c => if c == 0x22 || c == 0x5C then [0x5C, c] else [c]) ++ 0x22 :: r) s r := by
  induction s with
  | nil => exact .close
  | cons c s ih =>
    rw [List.flatMap_cons, List.append_assoc]
    by_cases hc : (c == 0x22 || c == 0x5C) = true
    · rw [if_pos hc]
      exact .escaped ih
    · rw [if_neg hc]
      simp only [Bool.or_eq_true, beq_iff_eq, not_or] at hc
      exact .plain hc.1 hc.2 ih

/-- A literal that is one word reads as its number. -/
theorem datum_number {w r : Bytes} {x : Form} (hw : number? .none w = some x) (hd : ∀ c ∈ w, isDelimiter c = false)
    (hr : EndsWord r) : Datum (w ++ r) x r := by
  refine .word ?_ hd hr (.number hw)
  rintro rfl
  simp [number?] at hw

theorem decimalInt_plain (n : Int) : ∀ c ∈ decimalInt n, isDelimiter c = false := by
  have hd : ∀ k, ∀ c ∈ decimal k, isDelimiter c = false := fun k c hc =>
    (Numeral.mark_of_allDigits (allDigits_decimal k) c hc).plain.1
  cases n with
  | ofNat k => exact hd k
  | negSucc k => exact List.forall_mem_cons.mpr ⟨rfl, hd (k + 1)⟩

/-- A list is printed as `'x` if it is `(quote x)`, else in parentheses. -/
theorem enclose_cases (items : List Form) :
    (∃ span x, items = [ident span quoteWord, x] ∧ enclose items (texts items) = 0x27 :: x.text) ∨
      enclose items (texts items) = 0x28 :: (join [0x20] (texts items) ++ [0x29]) := by
  unfold enclose
  split
  · next x y t hx ht =>
    left
    unfold tagged? at hx
    split at hx
    · next span name z =>
      split at hx
      · next hq =>
        cases ht
        exact ⟨span, z, by rw [eq_of_beq hq], rfl⟩
      · cases hx
    · cases hx
  · exact .inr rfl

theorem texts_eq_map (xs : List Form) : texts xs = xs.map text := by
  induction xs with
  | nil => rfl
  | cons x xs ih => rw [texts, ih, List.map_cons]

/-- Printed forms with blanks between them. -/
theorem data_spaced {xs : List Form} (h : ∀ x ∈ xs, ∀ r, EndsWord r → Datum (x.text ++ r) x.bare r) {t : Bytes}
    (ht : Spaced (texts xs) t) (r : Bytes) : Data (t ++ 0x29 :: r) (bares xs) (0x29 :: r) := by
  rw [texts_eq_map] at ht
  rw [bares_eq_map]
  exact data_words h ht r

/-- Data with single spaces between them. -/
theorem data_join {xs : List Form} (h : ∀ x ∈ xs, ∀ r, EndsWord r → Datum (x.text ++ r) x.bare r) (r : Bytes) :
    Data (join [0x20] (texts xs) ++ 0x29 :: r) (bares xs) (0x29 :: r) :=
  data_spaced h (spaced_join _) r

/-- **The printed form of a readable form is a datum of it**, whatever ends a word may follow. -/
theorem datum_text {x : Form} (h : x.Readable) : ∀ r, EndsWord r → Datum (x.text ++ r) x.bare r := by
  induction h with
  | ident hw =>
    intro r hr
    obtain ⟨hne, hc, hw⟩ := isName_iff.mp hw
    exact .word hne hc hr hw
  | int => intro r hr; exact datum_number (number?_decimalInt _ _) (decimalInt_plain _) hr
  | float hx => intro r hr; exact datum_number (number?_floatForm _ hx) (floatForm_plain hx) hr
  | @string span s =>
    intro r _
    have ht : (string span s).text ++ r =
        0x22 :: (s.flatMap (fun c => if c == 0x22 || c == 0x5C then [0x5C, c] else [c]) ++ 0x22 :: r) := by
      simp [text, stringText]
    rw [ht]
    exact .string (characters_stringText s r)
  | @list span items _ ih =>
    intro r hr
    rw [text]
    rcases enclose_cases items with ⟨span, x, rfl, he⟩ | he
    · rw [he]
      exact .quote .nil (ih x (by simp) r hr)
    · rw [he, List.cons_append, List.append_assoc]
      exact .list (data_join ih r)

/-! ## Spans are not printed -/

theorem tagged?_bares (tag : Bytes) (items : List Form) :
    tagged? tag (bares items) = (tagged? tag items).map bare := by
  match items with
  | [] => rfl
  | [x] => cases x <;> rfl
  | [x, y] =>
    cases x with
    | ident span name =>
      simp only [bares, bare, tagged?]
      split <;> rfl
    | _ => rfl
  | x :: y :: z :: rest => cases x <;> rfl

theorem enclose_bares (items : List Form) (ts : List Bytes) : enclose (bares items) ts = enclose items ts := by
  unfold enclose
  rw [tagged?_bares]
  cases tagged? quoteWord items with
  | none => rfl
  | some x =>
    match ts with
    | [] | [_] | [_, _] | _ :: _ :: _ :: _ => rfl

mutual

/-- The printed form does not depend on spans. -/
theorem text_bare : ∀ x : Form, x.bare.text = x.text
  | ident .. => rfl
  | int .. => rfl
  | float .. => rfl
  | string .. => rfl
  | list _ items => by rw [bare, text, text, texts_bares items, enclose_bares]
  | missing => rfl

theorem texts_bares : ∀ xs : List Form, texts (bares xs) = texts xs
  | [] => rfl
  | x :: xs => by rw [bares, texts, texts, text_bare x, texts_bares xs]

end

end Form

/-! ## What is read is readable -/

theorem Literal.isFinite_of_finiteFloat? {s : Bytes} {x : Float} (h : finiteFloat? s = some x) :
    x.isFinite = true := by
  unfold finiteFloat? at h
  dsimp only at h
  generalize Mantissa.scan _ _ _ = scanned at h
  split at h
  · cases h
  obtain ⟨e, -, h⟩ := Option.bind_eq_some_iff.mp h
  unfold Mantissa.float? at h
  split at h
  · cases h
    exact Double.isFinite_ofMagnitude _ (by decide)
  · exact Double.isFinite_of_ofRatio? h

/-- A word of characters that is no number is a name. -/
theorem isName_utf8 (t : String) (hne : utf8 t ≠ []) (hd : (utf8 t).any isDelimiter = false)
    (hn : number? .none (utf8 t) = none) : IsName (utf8 t) := by
  refine isName_iff.mpr ⟨hne, fun c hc => ?_, .ident t hn rfl⟩
  exact Bool.eq_false_iff.mpr (List.any_eq_false.mp hd c hc)

theorem isName_quoteWord : IsName Form.quoteWord := isName_utf8 "quote" (by decide) rfl rfl

theorem readable_quotedForm (start : Nat) {x : Form} (h : x.Readable) : (quotedForm start x).Readable :=
  .list (List.forall_mem_cons.mpr ⟨.ident isName_quoteWord, List.forall_mem_singleton.mpr h⟩)

theorem readable_atom {start : Nat} {w : Bytes} {x : Form} (hne : w ≠ []) (hw : ∀ c ∈ w, isDelimiter c = false)
    (h : atom start w = .ok x) : x.Readable := by
  have hword := (atom_iff_word start w x.bare).mp ⟨x, h, rfl⟩
  unfold atom at h
  split at h
  · next hn =>
    cases h
    rcases number?_kind hn with ⟨n, rfl⟩ | ⟨v, rfl, hv⟩
    · exact .int
    · exact .float (Literal.isFinite_of_finiteFloat? hv)
  · split at h
    · cases h
    · cases h
      exact .ident (isName_iff.mpr ⟨hne, hw, hword⟩)

/-- The items of an open list are readable. -/
def Frame.Sound : Frame → Prop
  | list _ items => ∀ x ∈ items, x.Readable
  | quote _ => True

theorem handOver_sound {frames : List Frame} {x : Form} (hf : ∀ f ∈ frames, f.Sound) (hx : x.Readable) :
    (∀ f ∈ (handOver frames x).1, f.Sound) ∧ ∀ y, (handOver frames x).2 = some y → y.Readable := by
  induction frames generalizing x with
  | nil => exact ⟨hf, fun y hy => Option.some.inj hy ▸ hx⟩
  | cons f outer ih =>
    obtain ⟨hitems, houter⟩ := List.forall_mem_cons.mp hf
    cases f with
    | list start items =>
      refine ⟨List.forall_mem_cons.mpr ⟨?_, houter⟩, fun y hy => by cases hy⟩
      exact List.forall_mem_cons.mpr ⟨hx, hitems⟩
    | quote start => exact ih houter (readable_quotedForm start hx)

namespace Scanner

variable {s : Scanner} {t : Bytes}

/-- The forms that a scanner holds are readable, and its atom so far is a run of bytes that are no delimiters. -/
structure Sound (s : Scanner) : Prop where
  frames : ∀ f ∈ s.frames, f.Sound
  done : ∀ x ∈ s.done, x.Readable
  atom : ∀ start w, s.mode = .atom start w → w ≠ [] ∧ ∀ c ∈ w, isDelimiter c = false

theorem sound_start : Sound {} where
  frames := by simp
  done := by simp
  atom := by simp

theorem Sound.fail (h : s.Sound) (offset : Nat) (cause : Cause) : (s.fail offset cause).Sound :=
  ⟨h.frames, h.done, h.atom⟩

theorem Sound.deliver (h : s.Sound) {x : Form} (hx : x.Readable) : (s.deliver x).Sound := by
  obtain ⟨hframes, htop⟩ := handOver_sound h.frames hx
  unfold Scanner.deliver
  split
  · next frames ho =>
    rw [ho] at hframes
    exact ⟨hframes, h.done, by simp⟩
  · next frames top ho =>
    rw [ho] at hframes htop
    exact ⟨hframes, List.forall_mem_cons.mpr ⟨htop top rfl, h.done⟩, by simp⟩

theorem Sound.endAtom (h : s.Sound) {start : Nat} {w : Bytes} (hm : s.mode = .atom start w) :
    (s.endAtom start w).Sound := by
  obtain ⟨hne, hw⟩ := h.atom start w hm
  unfold Scanner.endAtom
  split
  · next hx => exact h.deliver (readable_atom (by simpa using hne) (by simpa using hw) hx)
  · exact h.fail _ _
  · exact h.fail _ _

theorem Sound.enter (h : s.Sound) (c : UInt8) : (s.enter c).Sound := by
  unfold Scanner.enter
  split
  · exact h
  split
  · exact h
  next hsp =>
  split
  · exact ⟨h.frames, h.done, by simp⟩
  next hsemi =>
  split
  · exact ⟨List.forall_mem_cons.mpr ⟨by simp [Frame.Sound], h.frames⟩, h.done, h.atom⟩
  next hopen =>
  split
  · split
    · next start items outer hf =>
      obtain ⟨hitems, houter⟩ := List.forall_mem_cons.mp (hf ▸ h.frames)
      have ho : Sound { s with frames := outer } := ⟨houter, h.done, h.atom⟩
      exact ho.deliver (.list fun x hx => hitems x (List.mem_reverse.mp hx))
    · exact h.fail _ _
  next hclose =>
  split
  · exact ⟨List.forall_mem_cons.mpr ⟨trivial, h.frames⟩, h.done, h.atom⟩
  next hquote =>
  split
  · exact ⟨h.frames, h.done, by simp⟩
  next hstring =>
  -- any other byte starts an atom
  refine ⟨h.frames, h.done, ?_⟩
  rintro start w ⟨⟩
  refine ⟨List.cons_ne_nil _ _, List.forall_mem_singleton.mpr ?_⟩
  have hmark : c ≠ 0x3B := fun he => hsemi (beq_iff_eq.mpr he)
  simp_all [isDelimiter]

/-- **A byte keeps a scanner sound.** -/
theorem Sound.step (h : s.Sound) (c : UInt8) : (s.step c).Sound := by
  unfold Scanner.step
  split
  · exact h
  -- the offset plays no part in soundness
  suffices hr : (s.read c).Sound from ⟨hr.frames, hr.done, hr.atom⟩
  unfold Scanner.read
  split
  · exact h.enter c
  · split
    · exact ⟨h.frames, h.done, by simp⟩
    · exact h
  · next start w hm =>
    split
    · exact (h.endAtom hm).enter c
    · next hc =>
      obtain ⟨-, hw⟩ := h.atom start w hm
      refine ⟨h.frames, h.done, ?_⟩
      rintro start w ⟨⟩
      exact ⟨List.cons_ne_nil _ _, List.forall_mem_cons.mpr ⟨by simpa using hc, hw⟩⟩
  · split
    · exact h.deliver .string
    split <;> exact ⟨h.frames, h.done, by simp⟩
  · exact ⟨h.frames, h.done, by simp⟩

theorem Sound.finish (h : s.Sound) : s.finish.Sound := by
  unfold Scanner.finish
  split
  · exact h
  split
  · exact h.fail _ _
  · exact h.fail _ _
  · next hm =>
    dsimp only
    split
    · exact h.endAtom hm
    · exact (h.endAtom hm).fail _ _
  · split
    · exact h
    · exact h.fail _ _

theorem Sound.run (h : s.Sound) (t : Bytes) : (t.foldl Scanner.step s).Sound := by
  induction t generalizing s with
  | nil => exact h
  | cons c t ih => exact ih (h.step c)

theorem Sound.next (h : s.Sound) {x : Form} {r : Bytes} (hn : s.next t = .ok (x, r)) : x.Readable := by
  induction t generalizing s with
  | nil =>
    unfold Scanner.next at hn
    dsimp only at hn
    split at hn
    · next hd =>
      cases hn
      exact h.finish.done _ (hd ▸ List.mem_cons_self)
    · cases hn
    · cases hn
  | cons c t ih =>
    unfold Scanner.next at hn
    dsimp only at hn
    split at hn
    · next hd =>
      cases hn
      exact (h.step c).done _ (hd ▸ List.mem_cons_self)
    · cases hn
    · exact ih (h.step c) hn

end Scanner

namespace Source

theorem readable_of_readOne {s : Source} {x : Form} (h : (s.readOne .form).1 = some x) : x.Readable := by
  rw [readOne, Grammar.read] at h
  cases hn : Scanner.next {} s.text with
  | error f =>
    rw [hn] at h
    cases h
  | ok p =>
    rw [hn] at h
    cases h
    exact Scanner.sound_start.next hn

theorem readable_of_mem_readAll {s : Source} {x : Form} (h : x ∈ s.readAll.1) : x.Readable := by
  exact (Scanner.sound_start.run s.text).finish.done x (List.mem_reverse.mp h)

end Source

/-! ## Printing and reading -/

theorem Form.Readable.readOne_text {x : Form} (h : x.Readable) :
    ∃ y, Source.readOne (.ofText x.text) .form = (some y, none) ∧ y.bare = x.bare := by
  rw [Source.readOne_iff_denotes, Source.text_ofText]
  have hx := Form.datum_text h [] (by simp [EndsWord])
  rw [List.append_nil] at hx
  exact .cons .nil hx (.nil .nil)

/-- **Printing and reading gives a form back.**  A readable form is printed as a text that is read, and read as the
same form up to spans, which prints as the same text; every form that is read, from any source, is readable. -/
theorem Form.reads_back :
    (∀ x : Form, x.Readable → ∃ y, Source.readOne (.ofText x.text) .form = (some y, none) ∧ y.bare = x.bare ∧
      y.text = x.text) ∧
    ∀ (s : Source) (x : Form), (s.readOne .form).1 = some x ∨ x ∈ s.readAll.1 → x.Readable := by
  refine ⟨fun x hx => ?_, fun s x h => ?_⟩
  · obtain ⟨y, hy, hb⟩ := hx.readOne_text
    exact ⟨y, hy, hb, by rw [← text_bare y, hb, text_bare]⟩
  · rcases h with h | h
    · exact Source.readable_of_readOne h
    · exact Source.readable_of_mem_readAll h

/-- `'(f "a\"\\" -1.5 -9223372036854775808 (quote f 'f))`, as a form; and the leading form of `'f 7`, as it is
read. -/
theorem Form.reads_back_nested_quotes :
    let f := Form.ident .none "f"
    let q := Form.ident .none quoteWord
    let x := Form.list .none [q, .list .none [f, .string .none [0x61, 0x22, 0x5C],
      .float .none (Double.ofMagnitude true 0x3FF8000000000000), .int .none Int64.minValue,
      .list .none [q, f, .list .none [q, f]]]]
    let y := Form.list ⟨0, 2⟩ [.ident ⟨0, 1⟩ quoteWord, .ident ⟨1, 2⟩ "f"]
    x.Readable ∧
    (∃ z, Source.readOne (.ofText x.text) .form = (some z, none) ∧ z.bare = x.bare ∧ z.text = x.text) ∧
      (Source.readOne (.ofText "'f 7") .form).1 = some y ∧ y.Readable := by
  intro f q x y
  have hf : f.Readable := .ident (isName_utf8 "f" (by decide) rfl rfl)
  have hq : q.Readable := .ident isName_quoteWord
  have hx : x.Readable := by
    have hd : (Double.ofMagnitude true 0x3FF8000000000000).isFinite = true :=
      Double.isFinite_ofMagnitude true (by decide)
    simp [x, readable_list_iff, hf, hq, Readable.string, Readable.float hd, Readable.int]
  have hy : (Source.readOne (.ofText "'f 7") .form).1 = some y := rfl
  exact ⟨hx, reads_back.1 x hx, hy, reads_back.2 _ y (.inl hy)⟩

end RegisterMachine
