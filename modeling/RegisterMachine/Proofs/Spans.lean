import RegisterMachine.Proofs.FirstOfAll
import RegisterMachine.Proofs.Layout

/-!
# Spans

Every form that is read, and every form inside it, carries the span of the bytes that it was read from.

* `Form.nodes`: a form and all forms inside it.
* `Span.text b g`: the bytes of the text `b` in the span `g`.
* `gaps start stop xs`: the spans between the forms `xs`.
* `Form.Located b n`: the span of `n` is in `b`, holds the spans of its items in their order, and its bytes alone
  read as `n`.  Only the word that a quote mark stands for has no bytes of its own.

Main statement: `Source.readAll_spans`, all forms of a text are located in it, in the order of the text and with
only blanks between them.
-/

namespace RegisterMachine

open Syntax

/-! ## Spans of a layout -/

/-- The bytes of a text in a span. -/
def Span.text (b : Bytes) (g : Span) : Bytes := (b.take g.stop).drop g.start

theorem Span.text_middle {p : Bytes} {i j : Nat} (w r : Bytes) (hi : p.length = i) (hj : i + w.length = j) :
    Span.text (p ++ w ++ r) ⟨i, j⟩ = w := by
  subst hi hj
  rw [Span.text, ← List.length_append, List.take_left, List.drop_left]

/-- The spans before, between and behind the forms of a text, from `start` up to `stop`. -/
def gaps (start stop : Nat) : List Form → List Span
  | [] => [⟨start, stop⟩]
  | x :: xs => ⟨start, x.span.start⟩ :: gaps x.span.stop stop xs

theorem gaps_concat (start stop : Nat) (xs : List Form) (x : Form) :
    gaps start stop (xs ++ [x]) = gaps start x.span.start xs ++ [⟨x.span.stop, stop⟩] := by
  induction xs generalizing start with
  | nil => rfl
  | cons y xs ih => rw [List.cons_append, gaps, ih, gaps, List.cons_append]

namespace Laid

variable {i : Nat} {u : Bytes} {x : Form} {xs : List Form}

/-- A layout of no form is blank, whatever follows it. -/
theorem blanks (h : Laid i u xs) (hxs : xs = []) (r : Bytes) : Blanks (u ++ r) r := by
  induction h generalizing r with
  | nil => exact .nil
  | @space i u xs c _ hc ih =>
    rw [List.append_assoc]
    exact (ih hxs _).trans (.space hc .nil)
  | @comment i u v xs _ hv ih =>
    rw [List.append_assoc, List.cons_append, List.append_assoc]
    have hline : Blanks ([byte '\n'] ++ r) r := .space (by decide) .nil
    exact (ih hxs _).trans (.comment hv (by simp [EndsLine]) hline)
  | atom | string | list | quote => cases hxs

/-- The text up to the last form, the text of this form, and the blanks behind it. -/
theorem split_last (h : Laid i u (x :: xs)) : ∃ p w g, u = p ++ (w ++ g) ∧ Laid i p xs ∧ FormDue w ∧
    x.span = ⟨i + p.length, i + p.length + w.length⟩ ∧ Laid x.span.stop g [] := by
  generalize hxs : x :: xs = ys at h
  induction h with
  | nil => cases hxs
  | space _ hc ih =>
    obtain ⟨p, w, g, rfl, hp, hw, hspan, hg⟩ := ih hxs
    exact ⟨p, w, g ++ [_], by simp, hp, hw, hspan, .space hg hc⟩
  | comment _ hv ih =>
    obtain ⟨p, w, g, rfl, hp, hw, hspan, hg⟩ := ih hxs
    exact ⟨p, w, g ++ _, by simp, hp, hw, hspan, .comment hg hv⟩
  | @atom i u w x xs hu _ hne hw hx =>
    cases hxs
    exact ⟨u, w, [], by simp, hu, formDue_word hne hw, atom_span hx, .nil⟩
  | @string i u r v xs hu =>
    cases hxs
    exact ⟨u, 0x22 :: r, [], by simp, hu, ⟨0x22, r, rfl, by decide, by decide⟩,
      by simp [Form.span, Nat.add_assoc, Nat.add_comm 1], .nil⟩
  | @list i u v xs ys hu =>
    cases hxs
    exact ⟨u, 0x28 :: (v ++ [0x29]), [], by simp, hu, ⟨0x28, _, rfl, by decide, by decide⟩,
      by simp [Form.span, Nat.add_assoc, Nat.add_comm 1], .nil⟩
  | @quote i u v x xs hu _ hstop =>
    cases hxs
    have hspan : (quotedForm (i + u.length) x).span = ⟨i + u.length, x.span.stop⟩ := rfl
    exact ⟨u, 0x27 :: v, [], by simp, hu, ⟨0x27, v, rfl, by decide, by decide⟩,
      by simp [hspan, hstop, Nat.add_assoc, Nat.add_comm 1], .nil⟩

/-- Every form takes some of the bytes. -/
theorem inside (h : Laid i u xs) :
    ∀ x ∈ xs, i ≤ x.span.start ∧ x.span.start < x.span.stop ∧ x.span.stop ≤ i + u.length := by
  induction xs generalizing u with
  | nil => simp
  | cons x xs ih =>
    obtain ⟨p, w, g, rfl, hp, hw, hspan, -⟩ := h.split_last
    have hlen := List.length_pos_iff.mpr hw.ne_nil
    simp only [List.length_append]
    rintro y (_ | ⟨_, hy⟩)
    · rw [hspan]
      dsimp only
      omega
    · obtain ⟨h₁, h₂, h₃⟩ := ih hp y hy
      omega

/-- The forms follow each other. -/
theorem ordered (h : Laid i u xs) : xs.reverse.Pairwise fun x y => x.span.stop ≤ y.span.start := by
  rw [List.pairwise_reverse]
  induction xs generalizing u with
  | nil => exact .nil
  | cons x xs ih =>
    obtain ⟨p, w, g, rfl, hp, -, hspan, -⟩ := h.split_last
    refine .cons (fun y hy => ?_) (ih hp)
    rw [hspan]
    exact (hp.inside y hy).2.2

/-- Between the forms, and behind them up to the end of the blanks `z`, there are only blanks. -/
theorem gaps_blank (h : Laid i u xs) {p : Bytes} (hp : p.length = i) {z : Bytes} (hz : Blanks z []) (r : Bytes) :
    ∀ g ∈ gaps i (i + (u ++ z).length) xs.reverse, Blanks (g.text (p ++ (u ++ z) ++ r)) [] := by
  induction xs generalizing u z r with
  | nil =>
    intro g hg
    obtain rfl := List.mem_singleton.mp hg
    rw [Span.text_middle _ _ hp rfl]
    exact (h.blanks rfl z).trans hz
  | cons x xs ih =>
    obtain ⟨q, w, g, rfl, hq, -, hspan, hg⟩ := h.split_last
    intro k hk
    rw [List.reverse_cons, gaps_concat, List.mem_append] at hk
    rcases hk with hk | hk
    · rw [hspan] at hk
      have := ih hq .nil (w ++ (g ++ (z ++ r))) k (by rwa [List.append_nil])
      simpa only [List.append_nil, List.append_assoc] using this
    · -- the last gap goes on into `z`
      obtain rfl := List.mem_singleton.mp hk
      have htext : p ++ (q ++ (w ++ g) ++ z) ++ r = (p ++ (q ++ w)) ++ (g ++ z) ++ r := by simp
      rw [htext, Span.text_middle]
      · exact (hg.blanks rfl z).trans hz
      · rw [hspan, List.length_append, List.length_append, hp, Nat.add_assoc]
      · rw [hspan]
        simp only [List.length_append]
        omega

/-- The text of a single form is read as it, wherever the text stands. -/
theorem scan_single (h : Laid i u [x]) : ∃ y, scan u = ([y], none) ∧ y.shift i = x := by
  have hs : Scanner.Ready { offset := i } i := ⟨rfl, rfl, rfl⟩
  have hrun := h.run hs
  have hend : (u.foldl Scanner.step (Scanner.behind i [] {})).finish =
      { offset := i + u.length, done := [x] } := by
    rw [Scanner.behind_start, Scanner.finish_settle (hrun ▸ hs.deliverAll [x] _), hrun,
      Scanner.deliverAll_top rfl rfl]
    rfl
  rw [Scanner.foldl_step_behind, Scanner.finish_behind] at hend
  have hdone := congrArg Scanner.done hend
  have hfault := congrArg Scanner.fault hend
  simp only [Scanner.behind, List.append_nil] at hdone hfault
  obtain ⟨y, hy, hyx⟩ := List.map_eq_singleton_iff.mp hdone
  refine ⟨y, ?_, hyx⟩
  rw [scan_eq, hy, Option.map_eq_none_iff.mp hfault]
  rfl

end Laid

/-! ## Forms inside forms -/

namespace Form

mutual

/-- The form and all forms inside it. -/
def nodes : Form → List Form
  | list span items => list span items :: nodesIn items
  | x => [x]

/-- The forms and all forms inside them. -/
def nodesIn : List Form → List Form
  | [] => []
  | x :: xs => x.nodes ++ nodesIn xs

end

theorem mem_nodesIn {n : Form} {xs : List Form} : n ∈ nodesIn xs ↔ ∃ x ∈ xs, n ∈ x.nodes := by
  induction xs with
  | nil => simp [nodesIn]
  | cons x xs ih => simp [nodesIn, ih]

/-- The word that a quote mark of the text stands for. -/
def IsMark (b : Bytes) (n : Form) : Prop :=
  ∃ i, n = ident ⟨i, i + 1⟩ quoteWord ∧ Span.text b ⟨i, i + 1⟩ = [0x27]

/-- The span of a form points at its text. -/
structure Located (b : Bytes) (n : Form) : Prop where
  start_lt : n.span.start < n.span.stop
  stop_le : n.span.stop ≤ b.length
  items_inside : ∀ items ∈ n.items?, ∀ x ∈ items, n.span.start ≤ x.span.start ∧ x.span.stop ≤ n.span.stop
  items_ordered : ∀ items ∈ n.items?, items.Pairwise fun x y => x.span.stop ≤ y.span.start
  reads : ¬ n.IsMark b →
    ∃ y, (Source.ofText (n.span.text b)).readOne .form = (some y, none) ∧ y.shift n.span.start = n

end Form

theorem atom_nodes {start : Nat} {w : Bytes} {x : Form} (h : atom start w = .ok x) :
    x.nodes = [x] ∧ x.items? = none := by
  unfold atom at h
  split at h
  · next hn =>
    cases h
    rcases number?_kind hn with ⟨n, rfl⟩ | ⟨v, rfl, -⟩ <;> exact ⟨rfl, rfl⟩
  · split at h
    · cases h
    · cases h
      exact ⟨rfl, rfl⟩

/-- A form with a text of its own is located where this text stands. -/
theorem Laid.located {p w : Bytes} {n : Form} (h : Laid p.length w [n]) (hne : w ≠ [])
    (hspan : n.span = ⟨p.length, p.length + w.length⟩)
    (hin : ∀ items ∈ n.items?, ∀ x ∈ items, p.length ≤ x.span.start ∧ x.span.stop ≤ p.length + w.length)
    (hord : ∀ items ∈ n.items?, items.Pairwise fun x y => x.span.stop ≤ y.span.start) (r : Bytes) :
    n.Located (p ++ w ++ r) where
  start_lt := by
    have := List.length_pos_iff.mpr hne
    rw [hspan]
    dsimp only
    omega
  stop_le := by
    rw [hspan, List.length_append, List.length_append]
    exact Nat.le_add_right ..
  items_inside := by rwa [hspan]
  items_ordered := hord
  reads := by
    intro _
    obtain ⟨y, hy, hshift⟩ := h.scan_single
    rw [hspan, Span.text_middle w r rfl rfl]
    exact ⟨y, Source.readOne_of_scan (by rwa [Source.text_ofText]), hshift⟩

/-- A list is located where its brackets are. -/
theorem Laid.located_list {p v : Bytes} {ys : List Form} (h : Laid (p.length + 1) v ys) (r : Bytes) :
    (Form.list ⟨p.length, p.length + 1 + v.length + 1⟩ ys.reverse).Located (p ++ 0x28 :: (v ++ [0x29]) ++ r) := by
  have hlaid : Laid p.length (0x28 :: (v ++ [0x29]))
    [.list ⟨p.length, p.length + 1 + v.length + 1⟩ ys.reverse] := .list .nil h
  refine hlaid.located (by simp) ?_ ?_ ?_ r
  · simp [Form.span, Nat.add_assoc, Nat.add_comm 1]
  · rintro _ ⟨rfl⟩ x hx
    have := h.inside x (List.mem_reverse.mp hx)
    simp only [List.length_cons, List.length_append, List.length_nil]
    omega
  · rintro _ ⟨rfl⟩
    exact h.ordered

/-- A quoted form is located from the quote mark on. -/
theorem Laid.located_quotedForm {p v : Bytes} {x : Form} (h : Laid (p.length + 1) v [x])
    (hstop : x.span.stop = p.length + 1 + v.length) (r : Bytes) :
    (quotedForm p.length x).Located (p ++ 0x27 :: v ++ r) := by
  have hlaid : Laid p.length (0x27 :: v) [quotedForm p.length x] := .quote .nil h hstop
  have hx := h.inside x (List.mem_singleton_self x)
  have hlen : (0x27 :: v).length = v.length + 1 := List.length_cons
  refine hlaid.located (by simp) ?_ ?_ ?_ r
  · show (⟨_, x.span.stop⟩ : Span) = _
    rw [hstop, hlen, Nat.add_assoc, Nat.add_comm 1]
  · rintro _ ⟨rfl⟩ y hy
    rcases List.mem_pair.mp hy with rfl | rfl
    · simp only [Form.span]
      omega
    · omega
  · rintro _ ⟨rfl⟩
    exact List.pairwise_pair.mpr hx.1

/-- The word before a quoted form is located at the quote mark. -/
theorem located_mark (p v r : Bytes) :
    (Form.ident ⟨p.length, p.length + 1⟩ Form.quoteWord).Located (p ++ 0x27 :: v ++ r) where
  start_lt := Nat.lt_succ_self _
  stop_le := by
    simp only [Form.span, List.length_append, List.length_cons]
    omega
  items_inside := by simp [Form.items?]
  items_ordered := by simp [Form.items?]
  reads := by
    intro h
    refine absurd ⟨_, rfl, ?_⟩ h
    have htext : p ++ 0x27 :: v ++ r = p ++ [0x27] ++ (v ++ r) := by simp
    rw [htext]
    exact Span.text_middle _ _ rfl rfl

/-- A form with the text `w` comes behind forms that are located whatever follows them. -/
theorem forall_located_cons {p u w r : Bytes} {x : Form} {xs : List Form}
    (hold : ∀ r, ∀ y ∈ xs, ∀ n ∈ y.nodes, n.Located (p ++ u ++ r))
    (hnew : ∀ n ∈ x.nodes, n.Located ((p ++ u) ++ w ++ r)) :
    ∀ y ∈ x :: xs, ∀ n ∈ y.nodes, n.Located (p ++ (u ++ w) ++ r) := by
  rw [← List.append_assoc p]
  refine List.forall_mem_cons.mpr ⟨hnew, fun y hy n hn => ?_⟩
  rw [List.append_assoc (p ++ u)]
  exact hold (w ++ r) y hy n hn

/-- **The forms of a layout are located in every text that holds it**, and so is every form inside them. -/
theorem Laid.nodes_located {i : Nat} {u : Bytes} {xs : List Form} (h : Laid i u xs) {p : Bytes} (hp : p.length = i)
    (r : Bytes) : ∀ x ∈ xs, ∀ n ∈ x.nodes, n.Located (p ++ u ++ r) := by
  -- the text before and behind the layout changes on the way into a list
  induction h generalizing p r with
  | nil => simp
  | space _ _ ih | comment _ _ ih =>
    rw [← List.append_assoc p, List.append_assoc (p ++ _)]
    exact ih hp _
  | @atom i u w x xs _ _ hne hw hx ih =>
    refine forall_located_cons (ih hp) ?_
    obtain rfl := hp
    rw [← List.length_append] at hx
    obtain ⟨hnodes, hitems⟩ := atom_nodes hx
    have hlaid : Laid (p ++ u).length w [x] := .atom .nil (by simp [AtBoundary]) hne hw hx
    rw [hnodes, List.forall_mem_singleton]
    exact hlaid.located hne (atom_span hx) (by simp [hitems]) (by simp [hitems]) r
  | @string i u s v xs _ hs ih =>
    refine forall_located_cons (ih hp) ?_
    obtain rfl := hp
    rw [← List.length_append]
    have hlaid : Laid (p ++ u).length (0x22 :: s)
      [.string ⟨(p ++ u).length, (p ++ u).length + 1 + s.length⟩ v] := .string .nil hs
    simp only [Form.nodes, List.forall_mem_singleton]
    refine hlaid.located (by simp) ?_ (by simp [Form.items?]) (by simp [Form.items?]) r
    simp [Form.span, Nat.add_assoc, Nat.add_comm 1]
  | @list i u v xs ys _ hv ih₁ ih₂ =>
    refine forall_located_cons (ih₁ hp) ?_
    obtain rfl := hp
    rw [← List.length_append] at hv ih₂ ⊢
    rw [Form.nodes]
    refine List.forall_mem_cons.mpr ⟨hv.located_list r, fun n hmem => ?_⟩
    obtain ⟨y, hy, hn⟩ := Form.mem_nodesIn.mp hmem
    have htext : (p ++ u) ++ 0x28 :: (v ++ [0x29]) ++ r = (p ++ u ++ [0x28]) ++ v ++ (0x29 :: r) := by simp
    rw [htext]
    exact ih₂ (List.length_append ..) _ y (List.mem_reverse.mp hy) n hn
  | @quote i u v x xs _ hv hstop ih₁ ih₂ =>
    refine forall_located_cons (ih₁ hp) ?_
    obtain rfl := hp
    rw [← List.length_append] at hv hstop ih₂ ⊢
    refine List.forall_mem_cons.mpr ⟨hv.located_quotedForm hstop r, fun n hmem => ?_⟩
    obtain ⟨y, hy, hn⟩ := Form.mem_nodesIn.mp hmem
    rcases List.mem_pair.mp hy with rfl | rfl
    · obtain rfl := List.mem_singleton.mp hn
      exact located_mark _ v r
    · have htext : (p ++ u) ++ 0x27 :: v ++ r = (p ++ u ++ [0x27]) ++ v ++ r := by simp
      rw [htext]
      exact ih₂ (List.length_append ..) r _ (List.mem_singleton_self _) n hn

/-! ## The forms of a text -/

/-- Behind the layout of all forms that are read no form is complete. -/
theorem scan_rest {p v : Bytes} (hp : Laid 0 p (scan (p ++ v)).1.reverse) (ha : Apart p v) :
    (scan v).1 = [] ∧ (scan (p ++ v)).2 = (scan v).2.map (Fault.shift p.length) := by
  have h := scan_laid hp ha
  rw [List.reverse_reverse] at h
  have hforms : (scan (p ++ v)).1 = (scan (p ++ v)).1 ++ (scan v).1.map (Form.shift p.length) :=
    congrArg Prod.fst h
  exact ⟨List.map_eq_nil_iff.mp (List.self_eq_append_right.mp hforms), congrArg Prod.snd h⟩

/-- A text that has a fault and no form is read, at any offset, as a form with this fault. -/
theorem Grammar.read_of_scan {v : Bytes} {f : Fault} (h : scan v = ([], some f)) (k : Nat) :
    Grammar.form.read k v = .error ((f.shift k).offset, (f.shift k).error) := by
  obtain ⟨hdone, hfault⟩ := scan_done h
  have hnext : Scanner.next { offset := k } v = .error (f.shift k) := by
    rw [← Scanner.behind_start]
    refine Scanner.next_of_fault rfl ?_ ?_
    · rw [Scanner.foldl_step_behind, Scanner.finish_behind, Scanner.behind, hdone]
      rfl
    · rw [Scanner.foldl_step_behind, Scanner.finish_behind, Scanner.behind, hfault]
      rfl
  rw [Grammar.read, hnext]

namespace Source

/-- **Spans point at their own text.**  Every form that is read from a text is located in it, as is every form
inside, and the forms follow each other.  Around them stand only blanks: up to the end of the text, or up to the
form that cannot be read, which starts at or before the offset of its error. -/
theorem readAll_spans (b : Bytes) :
    (∀ x ∈ (ofText b).readAll.1, ∀ n ∈ x.nodes, n.Located b) ∧
    ((ofText b).readAll.1.Pairwise fun x y => x.span.stop ≤ y.span.start) ∧
    ((ofText b).readAll.2 = none → ∀ g ∈ gaps 0 b.length (ofText b).readAll.1, Blanks (g.text b) []) ∧
    ((ofText b).readAll.2 ≠ none → ∃ start offset e, ReadingStops b (ofText b).readAll.1 offset e ∧
      start ≤ offset ∧ start < b.length ∧ Solid (b.drop start) ∧
      Grammar.form.read start (b.drop start) = .error (offset, e) ∧
      ∀ g ∈ gaps 0 start (ofText b).readAll.1, Blanks (g.text b) []) := by
  have hread := readAll_ofText b
  obtain ⟨p, v, rfl, hp, ha, hblank, hdue⟩ := scan_layout b
  have hforms : (ofText (p ++ v)).readAll.1 = (scan (p ++ v)).1 := congrArg Prod.fst hread
  have herr : (ofText (p ++ v)).readAll.2 = none ↔ (scan (p ++ v)).2 = none := by
    rw [hread]
    exact Option.map_eq_none_iff
  rw [hforms, ne_eq, herr]
  refine ⟨fun x hx => ?_, ?_, fun hnone => ?_, fun hsome => ?_⟩
  · exact hp.nodes_located (p := []) rfl v x (List.mem_reverse.mpr hx)
  · have := hp.ordered
    rwa [List.reverse_reverse] at this
  · have := hp.gaps_blank (p := []) rfl (hblank hnone) []
    simpa only [List.reverse_reverse, Nat.zero_add, List.nil_append, List.append_nil] using this
  · -- the fault is that of the rest `v`, which starts with the form that cannot be read
    obtain ⟨hempty, hfault⟩ := scan_rest hp ha
    obtain ⟨f, hf⟩ := Option.ne_none_iff_exists'.mp hsome
    obtain ⟨f', hf', rfl⟩ := Option.map_eq_some_iff.mp (hfault.symm.trans hf)
    have hdue := hdue hsome
    refine ⟨p.length, _, _, readingStops_iff.mpr ⟨_, Prod.ext rfl hf, rfl, rfl⟩, Nat.le_add_right ..,
      ?_, ?_, ?_, ?_⟩
    · obtain ⟨c, t, rfl, -⟩ := hdue
      simp
    · rw [List.drop_left]
      exact hdue.solid
    · rw [List.drop_left]
      exact Grammar.read_of_scan (Prod.ext hempty hf') p.length
    · have := hp.gaps_blank (p := []) rfl .nil v
      simpa only [List.reverse_reverse, Nat.zero_add, List.nil_append, List.append_nil] using this

/-- **The bytes before an error need not be blank**: the list that is open is no form, and the error is at
its end. -/
theorem readAll_spans_open_list :
    ReadingStops (utf8 "(a") [] 2 (.within .list (.openedAt 0 .endOfInput)) ∧
      ∃ g ∈ gaps 0 2 [], ¬ Blanks (g.text (utf8 "(a")) [] := by
  refine ⟨readingStops_iff.mpr ⟨_, rfl, rfl, rfl⟩, ⟨0, 2⟩, List.mem_singleton_self _, fun h => ?_⟩
  exact absurd h.skipBlanks_eq (by decide)

end Source

end RegisterMachine
