import RegisterMachine.Proofs.Translation

/-!
# Reading values up to an error

Input is read by lines, and the values of lines are queued only when everything read so far is complete.  So an
error holds back the forms before it that share their lines with it, or with a form that goes on to them; the
values that come before the first failing call are those of the lines before.

* `LongestLines t p`: `p` is the longest start of the text `t` that consists of whole lines and is read to its end.
* `pieceOutcome c`: what a text `c` that is read as one piece gives.
* `Dialogue.Yields w vs f after`: the calls of `read` give the values `vs`, and the next call fails with `f`.
* `Dialogue.yields_lines`: the values of the longest lines and of the piece behind them.
* `Dialogue.yields_before_error`: what comes before an error, and what it takes with it.
-/

namespace RegisterMachine

/-! ## Whole lines -/

/-- The text is empty or ends with a line end. -/
def WholeLines (p : Bytes) : Prop := ∀ c ∈ p.getLast?, c = byte '\n'

theorem WholeLines.getLast? {p : Bytes} (h : WholeLines p) (hne : p ≠ []) : p.getLast? = some (byte '\n') := by
  cases hc : p.getLast? with
  | none => exact absurd (List.getLast?_eq_none_iff.mp hc) hne
  | some c => rw [h c hc]

theorem wholeLines_append {p q : Bytes} (hp : WholeLines p) (hq : WholeLines q) : WholeLines (p ++ q) := by
  intro c hc
  rw [List.getLast?_append, Option.mem_def, Option.or_eq_some_iff] at hc
  rcases hc with hc | ⟨-, hc⟩
  · exact hq c hc
  · exact hp c hc

/-- Whole lines stay so without the text before them. -/
theorem WholeLines.of_append {p q : Bytes} (h : WholeLines (p ++ q)) : WholeLines q := by
  intro c hc
  refine h c ?_
  rw [List.getLast?_append, hc]
  rfl

section Starts

variable {b u p : Bytes}

/-- Text without a line end adds no whole line. -/
theorem WholeLines.prefix_of_noLineEnd (hu : ∀ c ∈ u, c ≠ byte '\n') (hp : WholeLines p) (h : p <+: b ++ u) :
    p <+: b := by
  rcases List.prefix_or_prefix_of_prefix h (List.prefix_append b u) with hb | ⟨z, rfl⟩
  · exact hb
  · have hz : z <+: u := (List.prefix_append_right_inj b).mp h
    have hnil : z = [] := by
      by_contra hne
      have hlast := hp.of_append.getLast? hne
      exact hu _ (hz.subset (List.mem_of_getLast? hlast)) rfl
    rw [hnil, List.append_nil]

/-- One more line adds itself only. -/
theorem WholeLines.prefix_line (hu : ∀ c ∈ u, c ≠ byte '\n') (hp : WholeLines p)
    (h : p <+: b ++ (u ++ [byte '\n'])) : p <+: b ∨ p = b ++ (u ++ [byte '\n']) := by
  rw [← List.append_assoc] at h ⊢
  rcases List.prefix_concat_iff.mp h with rfl | h
  · exact .inr rfl
  · exact .inl (hp.prefix_of_noLineEnd hu h)

end Starts

/-! ## The longest lines that are read -/

/-- The text is read to its end. -/
def IsRead (t : Bytes) : Prop := (Source.ofText t).readAll.2 = none

/-- The values of the forms that are read from a text, up to the first error. -/
def textValues (t : Bytes) : List Value := Form.data (Source.ofText t).readAll.1

theorem isRead_iff {t : Bytes} : IsRead t ↔ (scan t).2 = none := by
  rw [IsRead, Source.readAll_ofText]
  exact Option.map_eq_none_iff

theorem textValues_eq (t : Bytes) : textValues t = Form.data (scan t).1 := by
  rw [textValues, Source.readAll_ofText]

theorem textValues_eq_nil_iff {t : Bytes} : textValues t = [] ↔ (Source.ofText t).readAll.1 = [] := by
  rw [textValues]
  cases (Source.ofText t).readAll.1 with
  | nil => exact iff_of_true rfl rfl
  | cons x xs => exact iff_of_false (by simp [Form.data]) (by simp)

/-- Behind lines that are read, a text is read as it is alone. -/
theorem read_lines {p : Bytes} (hp : p.getLast? = some (byte '\n')) (hr : IsRead p) (q : Bytes) :
    textValues (p ++ q) = textValues p ++ textValues q ∧ (IsRead (p ++ q) ↔ IsRead q) := by
  have hscan := scan_lines hp (Prod.ext rfl (isRead_iff.mp hr)) q
  rw [textValues_eq, textValues_eq, textValues_eq, isRead_iff, isRead_iff, hscan]
  refine ⟨?_, Option.map_eq_none_iff⟩
  rw [Form.data_append, Form.data_shift]

/-- The start of a text that consists of whole lines, is read to its end and is the longest such one. -/
structure LongestLines (t p : Bytes) : Prop where
  start : p <+: t
  lines : WholeLines p
  read : IsRead p
  longest : ∀ z, z <+: t → WholeLines z → IsRead z → z.length ≤ p.length

namespace LongestLines

variable {b c t u p : Bytes}

theorem of_none (h : ∀ z, z <+: t → WholeLines z → IsRead z → z = []) : LongestLines t [] where
  start := List.nil_prefix
  lines := by simp [WholeLines]
  read := rfl
  longest := fun z hz hl hr => by rw [h z hz hl hr]

theorem nil : LongestLines [] [] := of_none fun _ hz _ _ => List.prefix_nil.mp hz

theorem eq_nil (h : LongestLines t []) {z : Bytes} (hz : z <+: t) (hl : WholeLines z) (hr : IsRead z) : z = [] :=
  List.length_eq_zero_iff.mp (Nat.le_zero.mp (h.longest z hz hl hr))

/-- Where no lines can be read, text without a line end changes nothing. -/
theorem append_noLineEnd (h : LongestLines b []) (hu : ∀ c ∈ u, c ≠ byte '\n') : LongestLines (b ++ u) [] :=
  of_none fun _ hz hl => h.eq_nil (hl.prefix_of_noLineEnd hu hz) hl

/-- A line that completes nothing changes nothing. -/
theorem append_line (h : LongestLines b []) (hu : ∀ c ∈ u, c ≠ byte '\n')
    (hf : ¬ IsRead (b ++ (u ++ [byte '\n']))) : LongestLines (b ++ (u ++ [byte '\n'])) [] := by
  refine of_none fun z hz hl hr => ?_
  rcases hl.prefix_line hu hz with hz | rfl
  · exact h.eq_nil hz hl hr
  · exact absurd hr hf

/-- Behind a permanent fault no text changes anything. -/
theorem append_faulty (h : LongestLines c []) (hf : ∀ more, ¬ IsRead (c ++ more)) : LongestLines (c ++ t) [] := by
  refine of_none fun z hz hl hr => ?_
  rcases List.prefix_or_prefix_of_prefix hz (List.prefix_append c t) with hz | ⟨more, rfl⟩
  · exact h.eq_nil hz hl hr
  · exact absurd hr (hf more)

/-- Lines that are read come before the longest lines of the text behind them. -/
theorem append_left (h : LongestLines t p) (hc : c.getLast? = some (byte '\n')) (hr : IsRead c) :
    LongestLines (c ++ t) (c ++ p) := by
  have hread : ∀ q, IsRead (c ++ q) ↔ IsRead q := fun q => (read_lines hc hr q).2
  have hlines : WholeLines c := by simp [WholeLines, hc]
  refine ⟨(List.prefix_append_right_inj c).mpr h.start, wholeLines_append hlines h.lines, (hread p).mpr h.read, ?_⟩
  intro z hz hl hz'
  rw [List.length_append]
  rcases List.prefix_or_prefix_of_prefix hz (List.prefix_append c t) with hle | ⟨q, rfl⟩
  · have := hle.length_le
    omega
  · have := h.longest q ((List.prefix_append_right_inj c).mp hz) hl.of_append ((hread q).mp hz')
    rw [List.length_append]
    omega

/-- The values behind the longest lines follow the values of these. -/
theorem textValues_append (h : LongestLines t p) (ht : t = p ++ u) :
    textValues t = textValues p ++ textValues u ∧ (IsRead t ↔ IsRead u) := by
  subst ht
  by_cases hne : p = []
  · subst hne
    exact ⟨rfl, Iff.rfl⟩
  · exact read_lines (h.lines.getLast? hne) h.read u

end LongestLines

/-- A fault at the end of a line that is not open stays, whatever follows. -/
theorem scan_append_of_closed {u : Bytes} {f : Fault} (h : (scan (u ++ [byte '\n'])).2 = some f)
    (hc : f.cause.isOpen = false) (more : Bytes) : scan (u ++ [byte '\n'] ++ more) = scan (u ++ [byte '\n']) := by
  rw [scan_eq] at h ⊢
  rw [scan_eq, List.foldl_append (l := u ++ [byte '\n'])]
  cases hf : ((u ++ [byte '\n']).foldl Scanner.step {}).fault with
  | some g => rw [Scanner.foldl_step_of_fault hf]
  | none =>
    rcases Scanner.foldl_lineFeed hf with ⟨-, -, hfin⟩ | ⟨g, hg, hroot⟩
    · rw [hfin, hf] at h
      cases h
    · obtain rfl : f = g := Option.some.inj (h.symm.trans hg)
      rw [f.root_isOpen, hc] at hroot
      cases hroot

/-- An error of whole lines that is no open end stays, whatever follows them. -/
theorem readAll_append_of_permanent {b u : Bytes} {forms : List Form} {e : SyntaxError}
    (h : (Source.ofText (b ++ (u ++ [byte '\n']))).readAll = (forms, some e)) (he : e.isIncomplete = false)
    (more : Bytes) : (Source.ofText (b ++ (u ++ [byte '\n']) ++ more)).readAll = (forms, some e) := by
  rw [← List.append_assoc b] at h ⊢
  rw [Source.readAll_ofText] at h ⊢
  obtain ⟨rfl, herr⟩ := Prod.mk.inj h
  obtain ⟨f, hf, rfl⟩ := Option.map_eq_some_iff.mp herr
  rw [Source.isIncomplete_problemAt] at he
  rw [scan_append_of_closed hf he, hf, Option.map_some]
  simp only [Source.problemAt, Source.position_ofText_append (scan_fault_le hf)]

/-! ## One call -/

namespace Input

variable {i : Input} {line rest : Bytes}

theorem next_queued {v : Value} {vs : List Value} (hq : i.queue = v :: vs) :
    i.next = (.ok v, { i with queue := vs }) := by
  unfold next
  rw [hq]

theorem next_last (hq : i.queue = []) (hl : line? i.pending = none) : i.next = i.last := by
  unfold next
  rw [hq]
  dsimp only
  split
  · rfl
  · next h => rw [hl] at h; cases h

/-- **What a call does with the next line**: its values are queued if everything so far is complete, it is kept if
the text so far can go on, and otherwise the call fails. -/
theorem next_line (hq : i.queue = []) (hl : line? i.pending = some (line, rest)) :
    (∃ forms, (Source.ofText (i.buffer ++ line)).readAll = (forms, none) ∧
      i.next = next { i with pending := rest, buffer := [], queue := Form.data forms }) ∨
    (∃ forms e, (Source.ofText (i.buffer ++ line)).readAll = (forms, some e) ∧ e.isIncomplete = true ∧
      i.next = next { i with pending := rest, buffer := i.buffer ++ line }) ∨
    ∃ forms e, (Source.ofText (i.buffer ++ line)).readAll = (forms, some e) ∧ e.isIncomplete = false ∧
      i.next = (.error (.badInput e), { i with pending := rest, buffer := [] }) := by
  generalize hnext : i.next = r
  unfold next at hnext
  rw [hq] at hnext ⊢
  dsimp only at hnext
  split at hnext
  · next h => rw [hl] at h; cases h
  · next h =>
    rw [hl] at h
    cases h
    cases hr : (Source.ofText (i.buffer ++ line)).readAll with
    | mk forms err =>
      rw [hr] at hnext
      cases err with
      | none => exact .inl ⟨forms, rfl, hnext.symm⟩
      | some e =>
        dsimp only at hnext
        split at hnext
        · next he => exact .inr (.inl ⟨forms, e, rfl, he, hnext.symm⟩)
        · next he => exact .inr (.inr ⟨forms, e, rfl, Bool.eq_false_iff.mpr he, hnext.symm⟩)

end Input

/-! ## Call after call -/

/-- What a text that is read as one piece gives: its values and then the end of the input, or only its error. -/
def pieceOutcome (c : Bytes) : List Value × Failure :=
  match (Source.ofText c).readAll.2 with
  | none => (textValues c, .endOfInput)
  | some e => ([], .badInput e)

theorem pieceOutcome_of_read {c : Bytes} (h : IsRead c) : pieceOutcome c = (textValues c, .endOfInput) := by
  rw [pieceOutcome, h]

theorem pieceOutcome_of_error {c : Bytes} {e : SyntaxError} (h : (Source.ofText c).readAll.2 = some e) :
    pieceOutcome c = ([], .badInput e) := by
  rw [pieceOutcome, h]

namespace Dialogue

/-- The calls of `read` give these values, one after the other, and the call behind them fails and leaves another
world. -/
inductive Yields : World → List Value → Failure → World → Prop
  | failure {w w' : World} {f : Failure} : read [] w = (.failure f, w') → Yields w [] f w'
  | value {w w' after : World} {v : Value} {vs : List Value} {f : Failure} :
      read [] w = (.value v, w') → Yields w' vs f after → Yields w (v :: vs) f after

variable {w after : World} {i j : Input} {vs : List Value} {f : Failure}

/-- The values before the first failing call are the only ones. -/
theorem Yields.unique {us : List Value} {g : Failure} {w' : World} (h : Yields w vs f after)
    (h' : Yields w us g w') :
    vs = us := by
  induction h generalizing us with
  | failure hr =>
    cases h' with
    | failure => rfl
    | value hr' =>
      rw [hr] at hr'
      cases hr'
  | value hr _ ih =>
    cases h' with
    | failure hr' =>
      rw [hr] at hr'
      cases hr'
    | value hr' hrest =>
      rw [hr] at hr'
      cases hr'
      rw [ih hrest]

theorem Yields.congr (h : i.next = j.next) (hy : Yields (w.withInput j) vs f after) :
    Yields (w.withInput i) vs f after := by
  have hread : read [] (w.withInput i) = read [] (w.withInput j) := by rw [read_withInput, read_withInput, h]
  cases hy with
  | failure hr => exact .failure (hread.trans hr)
  | value hr hrest => exact .value (hread.trans hr) hrest

/-- Queued values come first. -/
theorem Yields.queued {us : List Value} (hq : i.queue = us)
    (h : Yields (w.withInput { i with queue := [] }) vs f after) : Yields (w.withInput i) (us ++ vs) f after := by
  induction us generalizing i with
  | nil =>
    rw [← hq] at h
    exact h
  | cons v us ih =>
    have hread : read [] (w.withInput i) = (.value v, w.withInput { i with queue := us }) := by
      rw [read_withInput, Input.next_queued hq]
      rfl
    exact .value hread (ih rfl h)

theorem yields_nothing :
    Yields (w.withInput { pending := [] }) [] .endOfInput (w.withInput { pending := [] }) := by
  refine .failure ?_
  rw [read_withInput, Input.next_last rfl rfl]
  rfl

/-- Without a further line end, the text is read as one piece. -/
theorem yields_last {b t : Bytes} (hl : line? t = none) :
    Yields (w.withInput { pending := t, buffer := b }) (pieceOutcome (b ++ t)).1 (pieceOutcome (b ++ t)).2
      (w.withInput { pending := [] }) := by
  cases hr : (Source.ofText (b ++ t)).readAll with
  | mk forms err =>
    cases err with
    | some e =>
      rw [pieceOutcome_of_error (by rw [hr])]
      refine .failure ?_
      rw [read_withInput, Input.next_last rfl hl, Input.last, hr]
      rfl
    | none =>
      rw [pieceOutcome_of_read (by rw [IsRead, hr]), textValues, hr]
      -- the call goes on as if the values had been queued before
      have hnext : Input.next { pending := t, buffer := b } =
          Input.next { pending := [], queue := Form.data forms } := by
        rw [Input.next_last rfl hl, Input.last, hr]
        dsimp only
        cases Form.data forms with
        | nil => rw [Input.next_last rfl rfl]; rfl
        | cons v vs => rw [Input.next_queued rfl]
      have hall := (yields_nothing (w := w)).queued (i := { pending := [], queue := Form.data forms }) rfl
      rw [List.append_nil] at hall
      exact hall.congr hnext

/-- **The values before the first failing call** are those of the longest lines that are read, and those of the
piece behind them if it is read too.  The rest of the text is read as this piece is, and there is none behind a
piece without an error. -/
theorem yields_lines (w : World) {b : Bytes} (t : Bytes) (hb : LongestLines b []) :
    ∃ p c r, b ++ t = p ++ (c ++ r) ∧ LongestLines (b ++ t) p ∧
      (Source.ofText (c ++ r)).readAll = (Source.ofText c).readAll ∧ (IsRead c → r = []) ∧
      Yields (w.withInput { pending := t, buffer := b }) (textValues p ++ (pieceOutcome c).1) (pieceOutcome c).2
        (w.withInput { pending := r }) := by
  -- by the length of the text to come; the text that is kept only grows while nothing is complete
  induction hn : t.length using Nat.strongRecOn generalizing b t with
  | ind n ih =>
    subst hn
    cases hl : line? t with
    | none =>
      refine ⟨[], b ++ t, [], ?_, hb.append_noLineEnd (line?_none hl), ?_, fun _ => rfl, yields_last hl⟩
      · rw [List.append_nil, List.nil_append]
      · rw [List.append_nil]
    | some cut =>
      obtain ⟨line, rest⟩ := cut
      have hlt := line?_rest_lt hl
      have ht := line?_eq_append hl
      obtain ⟨u, hu, rfl⟩ := line?_ends hl
      have htext : b ++ t = b ++ (u ++ [byte '\n']) ++ rest := by rw [ht]; simp only [List.append_assoc]
      have hlast : (b ++ (u ++ [byte '\n'])).getLast? = some (byte '\n') := by simp
      rw [htext]
      rcases Input.next_line (i := { pending := t, buffer := b }) rfl hl with
        ⟨forms, hr, hnext⟩ | ⟨forms, e, hr, -, hnext⟩ | ⟨forms, e, hr, he, hnext⟩
      · have hread : IsRead (b ++ (u ++ [byte '\n'])) := congrArg Prod.snd hr
        have hforms : textValues (b ++ (u ++ [byte '\n'])) = Form.data forms := by rw [textValues, hr]
        obtain ⟨p, c, r, rfl, hlong, hsame, hend, hy⟩ := ih _ hlt rest .nil rfl
        refine ⟨_, c, r, (List.append_assoc ..).symm, hlong.append_left hlast hread, hsame, hend, ?_⟩
        rw [(read_lines hlast hread p).1, hforms, List.append_assoc]
        exact (Yields.queued rfl hy).congr hnext
      · have hopen := hb.append_line hu (by rw [IsRead, hr]; exact Option.some_ne_none e)
        obtain ⟨p, c, r, hpcr, hlong, hsame, hend, hy⟩ := ih _ hlt rest hopen rfl
        exact ⟨p, c, r, hpcr, hlong, hsame, hend, hy.congr hnext⟩
      · -- the error stays the same whatever follows the line
        have hsame : ∀ more, (Source.ofText (b ++ (u ++ [byte '\n']) ++ more)).readAll = (forms, some e) :=
          readAll_append_of_permanent hr he
        have hfaulty : ∀ more, ¬ IsRead (b ++ (u ++ [byte '\n']) ++ more) := by
          intro more
          rw [IsRead, hsame more]
          exact Option.some_ne_none e
        have hbad : ¬ IsRead (b ++ (u ++ [byte '\n'])) := by simpa using hfaulty []
        refine ⟨[], b ++ (u ++ [byte '\n']), rest, rfl, (hb.append_line hu hbad).append_faulty hfaulty,
          (hsame rest).trans hr.symm, fun h => absurd h hbad, ?_⟩
        rw [pieceOutcome_of_error (congrArg Prod.snd hr)]
        refine .failure ?_
        rw [read_withInput, hnext]
        rfl

/-- **An error keeps back the values that share its lines.**  If a text is read to its end, the calls give all its
values and then say that the input has ended.  Otherwise let `p` be the longest start of whole lines that is read
to its end.  The calls give the values of `p`, and the next one fails with the error of the text behind `p`.  It
drops a piece `c` of this text, with the error and all forms before it, and leaves the rest `r` as a text of its
own.  So all values before the error are given exactly if no form stands before it in `c`. -/
theorem yields_before_error (t : Bytes) (w : World) :
    ((Source.ofText t).readAll.2 = none →
      Yields (w.withInput { pending := t }) (textValues t) .endOfInput (w.withInput { pending := [] })) ∧
    ∀ err, (Source.ofText t).readAll.2 = some err → ∃ p c r e, t = p ++ (c ++ r) ∧ LongestLines t p ∧
      (Source.ofText (c ++ r)).readAll = (Source.ofText c).readAll ∧ (Source.ofText c).readAll.2 = some e ∧
      Yields (w.withInput { pending := t }) (textValues p) (.badInput e) (w.withInput { pending := r }) ∧
      textValues t = textValues p ++ textValues c ∧
      ((∃ f after, Yields (w.withInput { pending := t }) (textValues t) f after) ↔
        (Source.ofText c).readAll.1 = []) := by
  obtain ⟨p, c, r, ht, hlong, hsame, hend, hy⟩ := yields_lines w t .nil
  rw [List.nil_append] at ht hlong
  obtain ⟨hvalues, hread⟩ := hlong.textValues_append ht
  have hrest : textValues (c ++ r) = textValues c := by rw [textValues, hsame, textValues]
  rw [IsRead, IsRead, hsame] at hread
  rw [hrest] at hvalues
  refine ⟨fun h => ?_, fun err h => ?_⟩
  · have hc : IsRead c := hread.mp h
    rw [pieceOutcome_of_read hc, hend hc] at hy
    rwa [hvalues]
  · have herr : (Source.ofText c).readAll.2 ≠ none := by
      rw [ne_eq, ← hread, h]
      exact Option.some_ne_none err
    obtain ⟨e, he⟩ := Option.ne_none_iff_exists'.mp herr
    rw [pieceOutcome_of_error he, List.append_nil] at hy
    refine ⟨p, c, r, e, ht, hlong, hsame, he, hy, hvalues, ?_⟩
    rw [hvalues]
    constructor
    · rintro ⟨f, after, hall⟩
      exact textValues_eq_nil_iff.mp (List.append_right_eq_self.mp (hall.unique hy))
    · intro hc
      rw [textValues_eq_nil_iff.mpr hc, List.append_nil]
      exact ⟨_, _, hy⟩

/-- A text that is read to its end; and one whose second form goes on to the line of the error, so that it does not
come, nor does the form behind it. -/
theorem yields_before_error_open_list :
    ((Source.ofText (utf8 "a\n(b\nc) d")).readAll.2 = none ∧
      Yields (World.withInput {} { pending := utf8 "a\n(b\nc) d" }) (textValues (utf8 "a\n(b\nc) d")) .endOfInput
        (World.withInput {} { pending := [] })) ∧
    ∃ t err, t = utf8 "a\n(b\nc) d )\ne" ∧ (Source.ofText t).readAll.2 = some err ∧
      ∃ p c r e, t = p ++ (c ++ r) ∧ LongestLines t p ∧
        (Source.ofText (c ++ r)).readAll = (Source.ofText c).readAll ∧ (Source.ofText c).readAll.2 = some e ∧
        Yields (World.withInput {} { pending := t }) (textValues p) (.badInput e)
          (World.withInput {} { pending := r }) ∧
        textValues t = textValues p ++ textValues c ∧
        ((∃ f after, Yields (World.withInput {} { pending := t }) (textValues t) f after) ↔
          (Source.ofText c).readAll.1 = []) :=
  ⟨⟨rfl, (yields_before_error (utf8 "a\n(b\nc) d") {}).1 rfl⟩,
    _, _, rfl, rfl, (yields_before_error (utf8 "a\n(b\nc) d )\ne") {}).2 _ rfl⟩

/-- **A value on the line of an error does not come**: the text has a form before the bracket, but the first call
fails. -/
theorem yields_nothing_before_bracket :
    textValues (utf8 "a )") = [.symbol (utf8 "a")] ∧
      ¬ ∃ f after, Yields (World.withInput {} { pending := utf8 "a )" }) (textValues (utf8 "a )")) f after := by
  refine ⟨rfl, ?_⟩
  rintro ⟨f, after, h⟩
  have hfails : Yields (World.withInput {} { pending := utf8 "a )" }) [] _ _ := yields_last (b := []) rfl
  cases h.unique hfails

end Dialogue

end RegisterMachine
