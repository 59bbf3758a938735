import RegisterMachine.Operation.Dialogue
import RegisterMachine.Proofs.Printing

/-!
# Reading values line by line

Input comes line by line, and each line is read together with the lines of a form that was not complete before it.
Behind a line end a scanner is between forms or inside a string (`Scanner.step_lineFeed`), so there are two cases
(`Scanner.foldl_lineFeed`): the lines so far are complete and the rest is a text of its own, or they end in the
middle of a form, which the error tells (`Syntax.Denotes.line`).

* `Input.Holds i vs`: the input has still to give the values `vs`.
* `Input.Gives i vs r`: what a call on such an input may give.  `Input.next_gives`: every call gives that.
* `Dialogue.reads_in_order`: the values of a text come one by one, in order and once each, however the text is cut
  into lines and however the input ends.
-/

namespace RegisterMachine

open Syntax

/-! ## Values do not depend on spans -/

namespace Form

theorem listDatum_bares (items : List Form) (vs : List Value) :
    listDatum (bares items) vs = listDatum items vs := by
  unfold listDatum
  rw [tagged?_bares]
  cases tagged? quoteWord items with
  | none => rfl
  | some x =>
    match vs with
    | [] | [_] | [_, _] | _ :: _ :: _ :: _ => rfl

mutual

theorem datum_bare : ∀ x : Form, x.bare.datum = x.datum
  | ident .. => rfl
  | int .. => rfl
  | float .. => rfl
  | string .. => rfl
  | list _ items => by
    rw [bare, datum, datum, data_bares items, listDatum_bares]
  | missing => rfl

theorem data_bares : ∀ xs : List Form, data (bares xs) = data xs
  | [] => rfl
  | x :: xs => by rw [bares, data, data, datum_bare x, data_bares xs]

end

theorem data_append (xs ys : List Form) : data (xs ++ ys) = data xs ++ data ys := by
  induction xs with
  | nil => rfl
  | cons x xs ih => rw [List.cons_append, data, data, ih, List.cons_append]

end Form

/-! ## The end of a line -/

/-- The contexts of an error do not change what it comes from. -/
theorem root_enclose (frames : List Frame) (e : ReadError) : (frames.foldl Frame.enclose e).root = e.root := by
  induction frames generalizing e with
  | nil => rfl
  | cons f frames ih =>
    rw [List.foldl_cons, ih]
    cases f <;> rfl

theorem Fault.root_endOfInput {f : Fault} (h : f.cause = .endOfInput) : f.error.root = .endOfInput := by
  obtain ⟨offset, cause, frames⟩ := f
  obtain rfl : cause = .endOfInput := h
  unfold Fault.error
  cases frames with
  | nil => rfl
  | cons frame outer => cases frame <;> exact root_enclose ..

theorem Fault.root_unterminated {f : Fault} (h : f.cause = .unterminated) : f.error.root = .endOfInput := by
  obtain ⟨offset, cause, frames⟩ := f
  obtain rfl : cause = .unterminated := h
  exact root_enclose ..

namespace Scanner

variable {s : Scanner} {xs : List Form}

theorem accepts_append_iff (p q : Bytes) : Accepts s (p ++ q) xs ↔ Accepts (p.foldl step s) q xs := by
  induction p generalizing s with
  | nil => rfl
  | cons c p ih => rw [List.cons_append, ← accepts_step_iff, List.foldl_cons, ih]

theorem enter_space {c : UInt8} (hc : isSpace c = true) : s.enter c = s := by
  unfold enter
  rw [if_pos hc]
  exact ite_self s

/-- Behind a line end the scanner is between forms or inside a string. -/
theorem step_lineFeed (hf : (s.step (byte '\n')).fault = none) :
    (s.step (byte '\n')).mode = .blank ∨ ∃ start w, (s.step (byte '\n')).mode = .string start w := by
  have hsp : isSpace (byte '\n') = true := by decide
  unfold step at hf ⊢
  split at hf
  · next h => simp [hf] at h
  next h =>
  rw [if_neg h]
  change (s.read _).fault = none at hf
  show (s.read _).mode = .blank ∨ ∃ start w, (s.read _).mode = .string start w
  unfold read at hf ⊢
  cases hm : s.mode with
  | blank =>
    dsimp only
    rw [enter_space hsp]
    exact .inl hm
  | comment => exact .inl rfl
  | atom start w =>
    have hdel : isDelimiter (byte '\n') = true := by decide
    rw [hm] at hf
    dsimp only at hf ⊢
    rw [if_pos hdel, enter_space hsp] at hf ⊢
    exact .inl (endAtom_mode start w hf)
  | string start w => exact .inr ⟨_, _, rfl⟩
  | escape start w => exact .inr ⟨_, _, rfl⟩

/-- A text that ends behind a line end is complete, or it ends in the middle of a form. -/
theorem finish_lineFeed (hf : s.fault = none) (hm : s.mode = .blank ∨ ∃ start w, s.mode = .string start w) :
    (s.mode = .blank ∧ s.frames = [] ∧ s.finish = s) ∨
      ∃ f, s.finish.fault = some f ∧ f.error.root = .endOfInput := by
  have hs : ¬ s.fault.isSome = true := by simp [hf]
  unfold finish
  rw [if_neg hs]
  rcases hm with hm | ⟨start, w, hm⟩
  · rw [hm]
    dsimp only
    split
    · next hfr => exact .inl ⟨rfl, List.isEmpty_iff.mp hfr, rfl⟩
    · exact .inr ⟨_, rfl, Fault.root_endOfInput rfl⟩
  · rw [hm]
    exact .inr ⟨_, rfl, Fault.root_unterminated rfl⟩

/-- So does a scanner that has read lines. -/
theorem foldl_lineFeed {u : Bytes} (hf : ((u ++ [byte '\n']).foldl step s).fault = none) :
    (((u ++ [byte '\n']).foldl step s).mode = .blank ∧ ((u ++ [byte '\n']).foldl step s).frames = [] ∧
      ((u ++ [byte '\n']).foldl step s).finish = (u ++ [byte '\n']).foldl step s) ∨
      ∃ f, ((u ++ [byte '\n']).foldl step s).finish.fault = some f ∧ f.error.root = .endOfInput := by
  rw [List.foldl_append] at hf ⊢
  exact finish_lineFeed hf (step_lineFeed hf)

end Scanner

theorem Source.readAll_ofText (t : Bytes) : (Source.ofText t).readAll =
    ((scan t).1, (scan t).2.map fun f => (Source.ofText t).problemAt f.offset (.unreadable f.error)) := by
  rw [Source.readAll, Source.text_ofText]

/-- A text is read as the values that it denotes. -/
theorem Syntax.Denotes.readAll {t : Bytes} {xs : List Form} (h : Denotes t xs) :
    ∃ forms, (Source.ofText t).readAll = (forms, none) ∧ Form.data forms = Form.data xs := by
  obtain ⟨hf, he⟩ := (scan_iff_denotes t xs).mp h
  refine ⟨(scan t).1, ?_, by rw [← he, Form.data_bares]⟩
  rw [Source.readAll_ofText, hf]
  rfl

/-- **A line end cuts a text** into two texts, or through a form: then the text before it is incomplete. -/
theorem Syntax.Denotes.line {u q : Bytes} {xs : List Form} (h : Denotes (u ++ byte '\n' :: q) xs) :
    (∃ forms zs, (Source.ofText (u ++ [byte '\n'])).readAll = (forms, none) ∧ Denotes q zs ∧
        Form.data xs = Form.data forms ++ Form.data zs) ∨
      ∃ forms e, (Source.ofText (u ++ [byte '\n'])).readAll = (forms, some e) ∧ e.isIncomplete = true := by
  rw [denotes_iff_accepts, List.append_cons, Scanner.accepts_append_iff] at h
  have hends := Scanner.foldl_lineFeed h.1
  rw [Source.readAll_ofText, scan]
  generalize (u ++ [byte '\n']).foldl Scanner.step {} = s at h hends
  rcases hends with ⟨hm, hfr, hfin⟩ | ⟨f, hfault, hroot⟩
  · -- nothing is open, so that the scanner goes on as from the start
    left
    obtain ⟨hf, hexp⟩ := h
    rw [hm, hfr] at hexp
    obtain ⟨zs, rfl, hzs⟩ := hexp
    refine ⟨s.done.reverse, zs, ?_, hzs, ?_⟩
    · simp only [hfin, hf, Option.map_none]
    · rw [Form.data_append, Form.data_bares]
  · right
    refine ⟨_, _, by rw [hfault, Option.map_some], ?_⟩
    simp only [SyntaxError.isIncomplete, Source.problemAt, hroot]

theorem line?_ends {s line rest : Bytes} (h : line? s = some (line, rest)) :
    ∃ u, (∀ c ∈ u, c ≠ byte '\n') ∧ line = u ++ [byte '\n'] := by
  induction s generalizing line with
  | nil => simp [line?] at h
  | cons c s ih =>
    unfold line? at h
    split at h
    · next hc =>
      obtain ⟨rfl, rfl⟩ := Prod.mk.inj (Option.some.inj h)
      exact ⟨[], by simp, by rw [eq_of_beq hc]; rfl⟩
    · next hc =>
      obtain ⟨p, hp, hq⟩ := Option.map_eq_some_iff.mp h
      obtain ⟨rfl, rfl⟩ := Prod.mk.inj hq
      obtain ⟨u, hne, hu⟩ := ih hp
      exact ⟨c :: u, List.forall_mem_cons.mpr ⟨by simpa using hc, hne⟩, by rw [hu]; rfl⟩

theorem line?_none {s : Bytes} (h : line? s = none) : ∀ c ∈ s, c ≠ byte '\n' := by
  induction s with
  | nil => simp
  | cons c s ih =>
    unfold line? at h
    split at h
    · cases h
    · next hc => exact List.forall_mem_cons.mpr ⟨by simpa using hc, ih (Option.map_eq_none_iff.mp h)⟩

/-! ## One call -/

/-- The values that an input has still to give: those in its queue, then those of the text it keeps and of the text
to come. -/
def Input.Holds (i : Input) (vs : List Value) : Prop :=
  ∃ xs, Denotes (i.buffer ++ i.pending) xs ∧ vs = i.queue ++ Form.data xs

/-- No text is left. -/
def Input.Drained (i : Input) : Prop := i.buffer = [] ∧ i.pending = []

/-- What a call may give on an input that has still to give some values: the first of them; the end of the input if
there is none; or the error that follows the text, once before the last values and again only behind them. -/
inductive Input.Gives (i : Input) : List Value → Except Failure Value × Input → Prop
  | value {v : Value} {vs : List Value} {j : Input} (hold : j.Holds vs) (same : j.failure = i.failure)
    (drained : i.Drained → j.Drained) : Gives i (v :: vs) (.ok v, j)
  | ended {j : Input} (ends : i.failure = none) (hold : j.Holds []) (same : j.failure = i.failure) :
    Gives i [] (.error .endOfInput, j)
  | failed {e : HostError} {vs : List Value} {j : Input} (fails : i.failure = some e) (hold : j.Holds vs)
    (same : j.failure = i.failure) (drained : j.Drained) (behind : i.Drained → vs = []) :
    Gives i vs (.error (.inputFailed e), j)

section Input

variable {i : Input} {vs : List Value}

/-- The next line completes the text so far, and its values are the next ones; or the text so far is kept for the
line after it. -/
theorem Input.Holds.line (h : i.Holds vs) (hq : i.queue = []) {line rest : Bytes}
    (hl : line? i.pending = some (line, rest)) :
    (∃ forms, (Source.ofText (i.buffer ++ line)).readAll = (forms, none) ∧
        Input.Holds { i with pending := rest, buffer := [], queue := Form.data forms } vs) ∨
      ∃ forms e, (Source.ofText (i.buffer ++ line)).readAll = (forms, some e) ∧ e.isIncomplete = true ∧
        Input.Holds { i with pending := rest, buffer := i.buffer ++ line } vs := by
  obtain ⟨xs, hxs, rfl⟩ := h
  obtain ⟨u, -, rfl⟩ := line?_ends hl
  have hcut : i.buffer ++ i.pending = (i.buffer ++ u) ++ byte '\n' :: rest := by
    rw [line?_eq_append hl]
    simp
  have hpre : i.buffer ++ (u ++ [byte '\n']) = (i.buffer ++ u) ++ [byte '\n'] := (List.append_assoc ..).symm
  rw [hcut] at hxs
  rw [hpre]
  rcases hxs.line with ⟨forms, zs, hr, hzs, hd⟩ | ⟨forms, e, hr, he⟩
  · refine .inl ⟨forms, hr, zs, hzs, ?_⟩
    rw [hq, hd]
    rfl
  · refine .inr ⟨forms, e, hr, he, xs, ?_, rfl⟩
    show Denotes ((i.buffer ++ u ++ [byte '\n']) ++ rest) xs
    rw [← List.append_cons]
    exact hxs

/-- Behind the last line end everything is complete. -/
theorem Input.last_gives (h : i.Holds vs) (hq : i.queue = []) : i.Gives vs i.last := by
  obtain ⟨xs, hxs, rfl⟩ := h
  obtain ⟨pending, failure, buffer, queue⟩ := i
  obtain rfl : queue = [] := hq
  obtain ⟨forms, hr, hdata⟩ := hxs.readAll
  have hnil : Denotes [] [] := .nil .nil
  have hdrained : Input.Drained ⟨pending, failure, buffer, []⟩ → Form.data forms = [] := by
    rintro ⟨rfl, rfl⟩
    rw [hdata, ((scan_iff_denotes _ _).mp hxs).2.symm]
    rfl
  rw [← hdata, List.nil_append]
  cases failure with
  | some e =>
    simp only [Input.last, hr]
    exact .failed rfl ⟨[], hnil, (List.append_nil _).symm⟩ rfl ⟨rfl, rfl⟩ hdrained
  | none =>
    simp only [Input.last, hr]
    cases Form.data forms with
    | nil => exact .ended rfl ⟨[], hnil, rfl⟩ rfl
    | cons v rest => exact .value ⟨[], hnil, (List.append_nil _).symm⟩ rfl fun _ => ⟨rfl, rfl⟩

/-- An input with a line to come is not drained, so what a later one gives it gives too. -/
theorem Input.Gives.of_text {j : Input} {r : Except Failure Value × Input} (h : j.Gives vs r)
    (hf : j.failure = i.failure) {p : Bytes × Bytes} (hl : line? i.pending = some p) : i.Gives vs r := by
  have hno : ¬ i.Drained := by
    rintro ⟨-, hp⟩
    rw [hp] at hl
    cases hl
  cases h with
  | value hold same _ => exact .value hold (same.trans hf) fun hd => absurd hd hno
  | ended ends hold same => exact .ended (hf.symm.trans ends) hold (same.trans hf)
  | failed fails hold same drained _ =>
    exact .failed (hf.symm.trans fails) hold (same.trans hf) drained fun hd => absurd hd hno

/-- **Every call gives the next value**, or says how the input ends. -/
theorem Input.next_gives (h : i.Holds vs) : i.Gives vs i.next := by
  fun_induction Input.next i with
  | case1 i v queue hq =>
    obtain ⟨xs, hxs, rfl⟩ := h
    rw [hq]
    exact .value ⟨xs, hxs, rfl⟩ rfl id
  | case2 i hq hl => exact Input.last_gives h hq
  | case3 i hq line rest hl forms hr ih =>
    rcases h.line hq hl with ⟨forms', hr', h'⟩ | ⟨forms', e, hr', -⟩
    · rw [hr] at hr'
      obtain ⟨rfl, -⟩ := Prod.mk.inj hr'
      exact (ih h').of_text rfl hl
    · rw [hr] at hr'
      cases hr'
  | case4 i hq line rest hl forms e hr hi ih =>
    rcases h.line hq hl with ⟨forms', hr', -⟩ | ⟨forms', e', hr', -, h'⟩
    · rw [hr] at hr'
      cases hr'
    · exact (ih h').of_text rfl hl
  | case5 i hq line rest hl forms e hr hi =>
    rcases h.line hq hl with ⟨forms', hr', -⟩ | ⟨forms', e', hr', he, -⟩
    · rw [hr] at hr'
      cases hr'
    · rw [hr] at hr'
      obtain ⟨-, he'⟩ := Prod.mk.inj hr'
      rw [← Option.some.inj he'] at he
      exact absurd he hi

/-- From here on the input fails behind its last value only, and then with `f`. -/
def Input.Settled (i : Input) (f : Failure) : Prop :=
  (i.failure = none ∧ f = .endOfInput) ∨ ∃ e, i.failure = some e ∧ f = .inputFailed e ∧ i.Drained

theorem Input.Settled.kept {j : Input} {f : Failure} (h : i.Settled f) (hf : j.failure = i.failure)
    (hd : i.Drained → j.Drained) : j.Settled f := by
  rcases h with ⟨h, rfl⟩ | ⟨e, h, rfl, hi⟩
  · exact .inl ⟨hf.trans h, rfl⟩
  · exact .inr ⟨e, hf.trans h, rfl, hd hi⟩

theorem Input.next_settled_cons {v : Value} {f : Failure} (h : i.Holds (v :: vs)) (hs : i.Settled f) :
    ∃ j, i.next = (.ok v, j) ∧ j.Holds vs ∧ j.Settled f := by
  have hg := Input.next_gives h
  generalize i.next = r at hg
  cases hg with
  | value hold same drained => exact ⟨_, rfl, hold, hs.kept same drained⟩
  | failed fails _ _ _ behind =>
    -- a settled input that fails is drained, and then no value is left
    rcases hs with ⟨h, -⟩ | ⟨e, -, -, hd⟩
    · rw [fails] at h
      cases h
    · cases behind hd

theorem Input.next_settled_nil {f : Failure} (h : i.Holds []) (hs : i.Settled f) :
    ∃ j, i.next = (.error f, j) ∧ j.Holds [] ∧ j.Settled f := by
  have hg := Input.next_gives h
  generalize i.next = r at hg
  cases hg with
  | ended ends hold same =>
    rcases hs with ⟨-, rfl⟩ | ⟨e, h, -⟩
    · exact ⟨_, rfl, hold, .inl ⟨same.trans ends, rfl⟩⟩
    · rw [ends] at h
      cases h
  | @failed e _ j fails hold same drained _ =>
    rcases hs with ⟨h, -⟩ | ⟨e', h, rfl, -⟩
    · rw [fails] at h
      cases h
    · obtain rfl : e = e' := Option.some.inj (fails.symm.trans h)
      exact ⟨_, rfl, hold, .inr ⟨e, same.trans fails, rfl, drained⟩⟩

end Input

/-! ## Call after call -/

/-- The world with this input. -/
def World.withInput (w : World) (i : Input) : World := { w with console := { w.console with input := some i } }

namespace Dialogue

/-- The outcomes of `n` calls of `read`, one after the other. -/
def reads : Nat → World → List Outcome
  | 0, _ => []
  | n + 1, w => (read [] w).1 :: reads n (read [] w).2

/-- The first `n` of these outcomes, or all of them and then failures up to `n`. -/
def thenFails (os : List Outcome) (f : Failure) (n : Nat) : List Outcome :=
  (os ++ List.replicate n (Outcome.failure f)).take n

variable {w : World} {i : Input} {vs : List Value}

theorem read_withInput (w : World) (i : Input) :
    read [] (w.withInput i) = (.ofExcept i.next.1, w.withInput i.next.2) := rfl

theorem reads_succ_of_next {r : Except Failure Value} {j : Input} (h : i.next = (r, j)) (n : Nat) :
    reads (n + 1) (w.withInput i) = .ofExcept r :: reads n (w.withInput j) := by
  rw [reads, read_withInput, h]

theorem take_reads (n m : Nat) (w : World) : (reads (n + m) w).take n = reads n w := by
  induction n generalizing w with
  | zero => rfl
  | succ n ih => rw [Nat.add_right_comm, reads, List.take_succ_cons, ih, reads]

/-- From a settled input the values come, and behind them every call fails. -/
theorem reads_settled {f : Failure} (h : i.Holds vs) (hs : i.Settled f) (n : Nat) :
    reads (vs.length + n) (w.withInput i) = vs.map .value ++ List.replicate n (.failure f) := by
  induction vs generalizing i with
  | nil =>
    rw [List.length_nil, Nat.zero_add, List.map_nil, List.nil_append]
    induction n generalizing i with
    | zero => rfl
    | succ n ih =>
      obtain ⟨j, hj, h', hs'⟩ := Input.next_settled_nil h hs
      rw [reads_succ_of_next hj, ih h' hs']
      rfl
  | cons v vs ih =>
    obtain ⟨j, hj, h', hs'⟩ := Input.next_settled_cons h hs
    rw [List.length_cons, Nat.add_right_comm, reads_succ_of_next hj, ih h' hs']
    rfl

/-- From an input that fails behind its text the values come too, but one call fails before all of them
have come. -/
theorem reads_failing {e : HostError} (h : i.Holds vs) (hf : i.failure = some e) :
    ∃ first last, first ++ last = vs ∧ ∀ n, reads (vs.length + 1 + n) (w.withInput i) =
      first.map .value ++ .failure (.inputFailed e) ::
        (last.map .value ++ List.replicate n (.failure (.inputFailed e))) := by
  have hg := Input.next_gives h
  generalize hr : i.next = r at hg
  induction vs generalizing i r with
  | nil =>
    cases hg with
    | ended ends =>
      rw [hf] at ends
      cases ends
    | failed fails hold same drained behind =>
      obtain rfl := Option.some.inj (fails.symm.trans hf)
      refine ⟨[], [], rfl, fun n => ?_⟩
      rw [Nat.add_right_comm, reads_succ_of_next hr, reads_settled hold (.inr ⟨_, same.trans hf, rfl, drained⟩)]
      rfl
  | cons v vs ih =>
    cases hg with
    | value hold same _ =>
      obtain ⟨first, last, rfl, hreads⟩ := ih hold (same.trans hf) _ rfl (Input.next_gives hold)
      refine ⟨v :: first, last, rfl, fun n => ?_⟩
      rw [List.length_cons, Nat.add_right_comm, reads_succ_of_next hr, hreads]
      rfl
    | failed fails hold same drained behind =>
      obtain rfl := Option.some.inj (fails.symm.trans hf)
      refine ⟨[], v :: vs, rfl, fun n => ?_⟩
      rw [Nat.add_right_comm, reads_succ_of_next hr, reads_settled hold (.inr ⟨_, same.trans hf, rfl, drained⟩)]
      rfl

/-- **Reading line by line loses, repeats and reorders nothing.**  Take any text that can be read, however its
forms are spread over lines.  If the input ends behind the text, the calls give the values of its forms, in order,
and every later call says that the input has ended.  If the input fails behind the text, the calls that succeed
still give exactly these values, in order and once each, and every other call gives that failure: one of them comes
before the `last` values, which are already queued then, and the others come behind all of them. -/
theorem reads_in_order {t : Bytes} {xs : List Form} (h : (Source.ofText t).readAll = (xs, none)) (w : World) :
    (∀ n, reads n (w.withInput { pending := t }) = thenFails ((Form.data xs).map .value) .endOfInput n) ∧
    ∀ e, ∃ first last, first ++ last = Form.data xs ∧
      ∀ n, reads n (w.withInput { pending := t, failure := some e }) =
        thenFails (first.map .value ++ .failure (.inputFailed e) :: last.map .value) (.inputFailed e) n := by
  have hden : Denotes t (Form.bares xs) := by
    have hscan := (Source.readAll_eq_iff _ _).mp h
    rw [Source.text_ofText] at hscan
    exact (scan_iff_denotes _ _).mpr ⟨hscan.1, by rw [hscan.2]⟩
  have hold : ∀ failure, Input.Holds { pending := t, failure := failure } (Form.data xs) := fun failure =>
    ⟨Form.bares xs, hden, by rw [Form.data_bares]; rfl⟩
  constructor
  · intro n
    rw [thenFails, ← reads_settled (w := w) (hold none) (.inl ⟨rfl, rfl⟩) n, Nat.add_comm, take_reads]
  · intro e
    obtain ⟨first, last, hsplit, hreads⟩ := reads_failing (w := w) (hold (some e)) rfl
    refine ⟨first, last, hsplit, fun n => ?_⟩
    rw [thenFails, List.append_assoc, List.cons_append, ← hreads n, Nat.add_comm, take_reads]

/-- A form goes on over lines behind another form, with a bracket in a comment and a line end in a string, and the
last line has no end. -/
theorem reads_in_order_across_lines : ∃ t xs,
    t = utf8 "a (b ; )\n \"c\nd\") 7\n'e" ∧ (Source.ofText t).readAll = (xs, none) ∧
    reads 5 (World.withInput {} { pending := t }) =
      [.value (.symbol (utf8 "a")), .value (.list [.symbol (utf8 "b"), .string (utf8 "c\nd")]), .value (.int 7),
        .value (.symbol (utf8 "e")), .failure .endOfInput] ∧
    ∃ first last, first ++ last = Form.data xs ∧
      reads 5 (World.withInput {} { pending := t, failure := some ⟨[]⟩ }) =
        first.map .value ++ .failure (.inputFailed ⟨[]⟩) :: last.map .value := by
  have hread : (Source.ofText (utf8 "a (b ; )\n \"c\nd\") 7\n'e")).readAll = (_, none) := rfl
  obtain ⟨hends, hfails⟩ := reads_in_order hread {}
  obtain ⟨first, last, hsplit, hreads⟩ := hfails ⟨[]⟩
  refine ⟨_, _, rfl, hread, hends 5, first, last, hsplit, (hreads 5).trans ?_⟩
  have hlen : first.length + last.length = 4 := by rw [← List.length_append, hsplit]; rfl
  refine List.take_left' ?_
  rw [List.length_append, List.length_cons, List.length_map, List.length_map]
  omega

end Dialogue

end RegisterMachine
