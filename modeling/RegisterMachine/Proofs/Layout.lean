import RegisterMachine.Proofs.Translation

/-!
# Layouts

A text is laid out as blanks and forms, each form where its span says.  A scanner that meets such a text delivers
its forms, wherever it starts and whatever is open around it; and whatever a scanner has read is laid out as the
forms that it holds.

* `Laid i u xs`: the bytes `u`, from the offset `i` on, are laid out as blanks and the forms `xs`, last first.
* `Laid.run`: what a scanner does with them.  An atom at the end is complete only with the next byte, which is why
  `Scanner.settle` ends it.
* `scan_laid`: a text goes on behind a layout as it does alone, moved by its length.
* `Opened frames done q`: the layout of a text in the middle of which the frames are open.
* `scan_layout`: every text is a layout of the forms that are read, and a rest: blanks, or a form that cannot be
  read.
-/

namespace RegisterMachine

open Syntax

/-! ## The rules -/

/-- The text is empty or ends with a delimiter, so that an atom can start behind it. -/
def AtBoundary (u : Bytes) : Prop := ∀ c ∈ u.getLast?, isDelimiter c = true

/-- The bytes, from an offset on, are blanks and forms; every comment has its line end.  The forms come last first,
each with its span. -/
inductive Laid : Nat → Bytes → List Form → Prop
  | nil {i : Nat} : Laid i [] []
  | space {i : Nat} {u : Bytes} {xs : List Form} {c : UInt8} :
      Laid i u xs → isSpace c = true → Laid i (u ++ [c]) xs
  | comment {i : Nat} {u v : Bytes} {xs : List Form} :
      Laid i u xs → (∀ c ∈ v, c ≠ byte '\n') → Laid i (u ++ byte ';' :: (v ++ [byte '\n'])) xs
  | atom {i : Nat} {u w : Bytes} {x : Form} {xs : List Form} :
      Laid i u xs → AtBoundary u → w ≠ [] → (∀ c ∈ w, isDelimiter c = false) → atom (i + u.length) w = .ok x →
        Laid i (u ++ w) (x :: xs)
  | string {i : Nat} {u s v : Bytes} {xs : List Form} :
      Laid i u xs → Characters s v [] →
        Laid i (u ++ 0x22 :: s) (.string ⟨i + u.length, i + u.length + 1 + s.length⟩ v :: xs)
  | list {i : Nat} {u v : Bytes} {xs ys : List Form} :
      Laid i u xs → Laid (i + u.length + 1) v ys →
        Laid i (u ++ 0x28 :: (v ++ [0x29]))
          (.list ⟨i + u.length, i + u.length + 1 + v.length + 1⟩ ys.reverse :: xs)
  | quote {i : Nat} {u v : Bytes} {x : Form} {xs : List Form} :
      Laid i u xs → Laid (i + u.length + 1) v [x] → x.span.stop = i + u.length + 1 + v.length →
        Laid i (u ++ 0x27 :: v) (quotedForm (i + u.length) x :: xs)

/-! ## Reading a layout -/

namespace Scanner

variable {s : Scanner} {c : UInt8}

/-- The scanner at another offset. -/
def moveTo (s : Scanner) (offset : Nat) : Scanner := { s with offset := offset }

/-- The forms, last first, delivered one after the other. -/
def deliverAll (s : Scanner) (xs : List Form) : Scanner := xs.foldr (fun x s => s.deliver x) s

theorem deliverAll_fault (s : Scanner) (xs : List Form) : (s.deliverAll xs).fault = s.fault := by
  induction xs with
  | nil => rfl
  | cons x xs ih => exact (deliver_fault _ x).trans ih

theorem deliverAll_mode (hm : s.mode = .blank) (xs : List Form) : (s.deliverAll xs).mode = .blank := by
  cases xs with
  | nil => exact hm
  | cons x xs => exact deliver_mode _ x

/-- A list takes the forms as its items. -/
theorem deliverAll_list (hm : s.mode = .blank) {start : Nat} {outer : List Frame}
    (hf : s.frames = .list start [] :: outer) (xs : List Form) :
    s.deliverAll xs = { s with frames := .list start xs :: outer } := by
  induction xs with
  | nil =>
    rw [← hf]
    rfl
  | cons x xs ih =>
    show (s.deliverAll xs).deliver x = _
    rw [ih, deliver_eq, hm]
    rfl

/-- Outside all frames the forms are those of the text. -/
theorem deliverAll_top (hm : s.mode = .blank) (hf : s.frames = []) (xs : List Form) :
    s.deliverAll xs = { s with done := xs ++ s.done } := by
  induction xs with
  | nil => rfl
  | cons x xs ih =>
    show (s.deliverAll xs).deliver x = _
    rw [ih, deliver_eq, hm, hf]
    rfl

/-- An atom that the scanner is inside of is taken as complete. -/
def settle (s : Scanner) : Scanner :=
  match s.mode with
  | .atom start w => s.endAtom start w
  | _ => s

theorem settle_of_ne_atom (h : ∀ start w, s.mode ≠ .atom start w) : s.settle = s := by
  unfold settle
  split
  · next hm => exact absurd hm (h _ _)
  · rfl

theorem settle_of_blank (hm : s.mode = .blank) : s.settle = s :=
  settle_of_ne_atom (by simp [hm])

theorem fault_of_endAtom {start : Nat} {w : Bytes} (h : (s.endAtom start w).fault = none) : s.fault = none := by
  unfold endAtom at h
  split at h
  · rwa [deliver_fault] at h
  · cases h
  · cases h

theorem fault_of_settle (h : s.settle.fault = none) : s.fault = none := by
  unfold settle at h
  split at h
  · exact fault_of_endAtom h
  · exact h

theorem step_of_blank (hf : s.fault = none) (hm : s.mode = .blank) (c : UInt8) :
    s.step c = (s.enter c).moveTo (s.offset + 1) := by
  unfold step
  rw [if_neg (by simp [hf]), read, hm]
  rfl

/-- A delimiter ends an atom. -/
theorem step_settle (hf : s.settle.fault = none) (hm : s.settle.mode = .blank) (hc : isDelimiter c = true) :
    s.step c = s.settle.step c := by
  rw [step_of_blank hf hm]
  unfold settle at hf hm ⊢
  split at hf
  · next start w hmode =>
    unfold step
    rw [if_neg (by simp [fault_of_endAtom hf]), read, hmode]
    dsimp only
    rw [if_pos hc, endAtom_offset]
    rfl
  · next hne =>
    have hblank : s.mode = .blank := by
      split at hm
      · next hmode => exact absurd hmode (hne _ _)
      · exact hm
    exact step_of_blank hf hblank c

theorem enter_mode_ne_atom (hm : s.mode = .blank) (hc : isDelimiter c = true) (start : Nat) (w : Bytes) :
    (s.enter c).mode ≠ .atom start w := by
  unfold enter
  split
  · simp [hm]
  split
  · simp [hm]
  split
  · simp
  split
  · simp [hm]
  split
  · split
    · simp [deliver_mode]
    · simp [fail, hm]
  split
  · simp [hm]
  split
  · simp
  · simp_all [isDelimiter, byte]

/-- Behind a delimiter the scanner is in no atom. -/
theorem step_mode_ne_atom (hf : (s.step c).fault = none) (hc : isDelimiter c = true) (start : Nat) (w : Bytes) :
    (s.step c).mode ≠ .atom start w := by
  unfold step at hf ⊢
  split at hf
  · next hs => simp [hf] at hs
  next hs =>
  rw [if_neg hs]
  change (s.read c).fault = none at hf
  show (s.read c).mode ≠ .atom start w
  unfold read at hf ⊢
  cases hm : s.mode with
  | blank => exact enter_mode_ne_atom hm hc start w
  | comment =>
    dsimp only
    split
    · simp
    · simp [hm]
  | atom start' w' =>
    rw [hm] at hf
    dsimp only at hf ⊢
    rw [if_pos hc] at hf ⊢
    cases he : (s.endAtom start' w').fault with
    | some f =>
      rw [enter_of_fault he, he] at hf
      cases hf
    | none => exact enter_mode_ne_atom (endAtom_mode start' w' he) hc start w
  | string start' w' =>
    dsimp only
    split
    · simp [deliver_mode]
    · split <;> simp
  | escape start' w' => simp

/-- Behind a boundary the scanner is in no atom. -/
theorem settle_of_atBoundary {u : Bytes} (hm : s.mode = .blank) (hu : AtBoundary u)
    (hf : (u.foldl step s).fault = none) : (u.foldl step s).settle = u.foldl step s := by
  induction u using List.reverseRecOn with
  | nil => exact settle_of_blank hm
  | append_singleton u c _ =>
    rw [List.foldl_append] at hf ⊢
    exact settle_of_ne_atom (step_mode_ne_atom hf (hu c (by simp)))

/-! ### Comments, atoms and strings -/

theorem foldl_comment (hf : s.fault = none) (hm : s.mode = .comment) {v : Bytes} (hv : ∀ c ∈ v, c ≠ byte '\n') :
    v.foldl step s = s.moveTo (s.offset + v.length) := by
  induction v generalizing s with
  | nil => rfl
  | cons c v ih =>
    obtain ⟨hc, hv⟩ := List.forall_mem_cons.mp hv
    have hstep : s.step c = s.moveTo (s.offset + 1) := by
      unfold step
      rw [if_neg (by simp [hf]), read, hm]
      dsimp only
      rw [if_neg (by simpa using hc)]
      rfl
    rw [List.foldl_cons, hstep, ih (s := s.moveTo (s.offset + 1)) hf hm hv, List.length_cons]
    simp only [moveTo, Nat.add_assoc, Nat.add_comm 1]

theorem foldl_atom (hf : s.fault = none) {start : Nat} {z : Bytes} (hm : s.mode = .atom start z) {w : Bytes}
    (hw : ∀ c ∈ w, isDelimiter c = false) :
    w.foldl step s = { s with mode := .atom start (w.reverse ++ z), offset := s.offset + w.length } := by
  induction w generalizing s z with
  | nil =>
    rw [List.reverse_nil, List.nil_append, ← hm]
    rfl
  | cons c w ih =>
    obtain ⟨hc, hw⟩ := List.forall_mem_cons.mp hw
    have hstep : s.step c = { s with mode := .atom start (c :: z), offset := s.offset + 1 } := by
      unfold step
      rw [if_neg (by simp [hf]), read, hm]
      dsimp only
      rw [if_neg (by simp [hc])]
    rw [List.foldl_cons, hstep,
      ih (s := { s with mode := .atom start (c :: z), offset := s.offset + 1 }) hf rfl hw]
    simp [Nat.add_assoc, Nat.add_comm 1]

theorem foldl_characters {r v e : Bytes} (h : Characters r v e) (he : e = []) {start : Nat} {z : Bytes}
    (hf : s.fault = none) (hm : s.mode = .string start z) :
    r.foldl step s =
      (s.deliver (.string ⟨start, s.offset + r.length⟩ (z.reverse ++ v))).moveTo (s.offset + r.length) := by
  induction h generalizing s z with
  | close =>
    subst he
    show s.step 0x22 = _
    unfold step
    rw [if_neg (by simp [hf]), read, hm]
    dsimp only
    rw [if_pos (by decide), List.append_nil]
    rfl
  | @escaped c r v e _ ih =>
    have hstep : (s.step 0x5C).step c = { s with mode := .string start (c :: z), offset := s.offset + 2 } := by
      unfold step
      simp [hf, read, hm]
    rw [List.foldl_cons, List.foldl_cons, hstep,
      ih he (s := { s with mode := .string start (c :: z), offset := s.offset + 2 }) hf rfl]
    simp [deliver_eq, moveTo, Nat.add_assoc, Nat.add_comm 2]
  | @plain c r v e h22 h5C _ ih =>
    have hstep : s.step c = { s with mode := .string start (c :: z), offset := s.offset + 1 } := by
      unfold step
      rw [if_neg (by simp [hf]), read, hm]
      dsimp only
      rw [if_neg (by simpa using h22), if_neg (by simpa using h5C)]
    rw [List.foldl_cons, hstep,
      ih he (s := { s with mode := .string start (c :: z), offset := s.offset + 1 }) hf rfl]
    simp [deliver_eq, moveTo, Nat.add_assoc, Nat.add_comm 1]

/-! ### The first byte of a form -/

theorem enter_comment (hf : s.fault = none) : s.enter (byte ';') = { s with mode := .comment } := by
  unfold enter
  rw [if_neg (by simp [hf]), if_neg (by decide), if_pos (by decide)]

theorem enter_open (hf : s.fault = none) : s.enter 0x28 = { s with frames := .list s.offset [] :: s.frames } := by
  unfold enter
  rw [if_neg (by simp [hf]), if_neg (by decide), if_neg (by decide), if_pos (by decide)]

theorem enter_close (hf : s.fault = none) {start : Nat} {items : List Form} {outer : List Frame}
    (hfr : s.frames = .list start items :: outer) :
    s.enter 0x29 = deliver { s with frames := outer } (.list ⟨start, s.offset + 1⟩ items.reverse) := by
  unfold enter
  rw [if_neg (by simp [hf]), if_neg (by decide), if_neg (by decide), if_neg (by decide), if_pos (by decide), hfr]

theorem enter_quote (hf : s.fault = none) : s.enter 0x27 = { s with frames := .quote s.offset :: s.frames } := by
  unfold enter
  rw [if_neg (by simp [hf]), if_neg (by decide), if_neg (by decide), if_neg (by decide), if_neg (by decide),
    if_pos (by decide)]

theorem enter_string (hf : s.fault = none) : s.enter 0x22 = { s with mode := .string s.offset [] } := by
  unfold enter
  rw [if_neg (by simp [hf]), if_neg (by decide), if_neg (by decide), if_neg (by decide), if_neg (by decide),
    if_neg (by decide), if_pos (by decide)]

theorem enter_atom (hf : s.fault = none) (hc : isDelimiter c = false) :
    s.enter c = { s with mode := .atom s.offset [c] } := by
  obtain ⟨hsp, h28, h29, h22, h27, h3B⟩ := not_delimiter hc
  unfold enter
  rw [if_neg (by simp [hf]), if_neg (by simp [hsp]), if_neg (by simpa using h3B), if_neg (by simpa using h28),
    if_neg (by simpa using h29), if_neg (by simpa using h27), if_neg (by simpa using h22)]

/-! ### What a piece of a layout does to a scanner between forms -/

/-- The scanner is between forms, at the offset `i`. -/
structure Ready (s : Scanner) (i : Nat) : Prop where
  fault : s.fault = none
  mode : s.mode = .blank
  offset : s.offset = i

theorem Ready.deliverAll {i : Nat} (h : s.Ready i) (xs : List Form) (j : Nat) :
    ((s.deliverAll xs).moveTo j).Ready j where
  fault := (s.deliverAll_fault xs).trans h.fault
  mode := deliverAll_mode h.mode xs
  offset := rfl

theorem Ready.step {i : Nat} (h : s.Ready i) (c : UInt8) : s.step c = (s.enter c).moveTo (i + 1) := by
  rw [step_of_blank h.fault h.mode, h.offset]

theorem Ready.settle {i : Nat} (h : s.Ready i) : s.settle = s := settle_of_blank h.mode

theorem moveTo_moveTo (s : Scanner) (i j : Nat) : (s.moveTo i).moveTo j = s.moveTo j := rfl

theorem moveTo_deliver (s : Scanner) (offset : Nat) (x : Form) :
    (s.moveTo offset).deliver x = (s.deliver x).moveTo offset := by
  rw [deliver_eq, deliver_eq]
  rfl

theorem deliverAll_cons (s : Scanner) (x : Form) (xs : List Form) (i j : Nat) :
    (s.deliverAll (x :: xs)).moveTo j = (((s.deliverAll xs).moveTo i).deliver x).moveTo j := by
  rw [moveTo_deliver]
  rfl

variable {S : Scanner} {j : Nat}

/-- A text that starts with a delimiter finds the atom before it complete. -/
theorem foldl_settled (h : S.Ready j) (hs : s.settle = S) (hc : isDelimiter c = true) (v : Bytes) :
    (c :: v).foldl step s = (c :: v).foldl step S := by
  subst hs
  rw [List.foldl_cons, List.foldl_cons, step_settle h.fault h.mode hc]

theorem foldl_lineComment (h : S.Ready j) {v : Bytes} (hv : ∀ c ∈ v, c ≠ byte '\n') :
    (byte ';' :: (v ++ [byte '\n'])).foldl step S = S.moveTo (j + (v.length + 2)) := by
  have hf := h.fault
  rw [List.foldl_cons, h.step, enter_comment hf, List.foldl_append, foldl_comment (by exact hf) rfl hv]
  show Scanner.step _ (byte '\n') = _
  unfold Scanner.step
  rw [if_neg (by simp [moveTo, hf]), read]
  simp [moveTo, h.mode, Nat.add_assoc, Nat.add_comm 1]

theorem foldl_word (h : S.Ready j) {w : Bytes} (hne : w ≠ []) (hw : ∀ c ∈ w, isDelimiter c = false) {x : Form}
    (hx : atom j w = .ok x) : (w.foldl step S).settle = (S.deliver x).moveTo (j + w.length) := by
  cases w with
  | nil => exact absurd rfl hne
  | cons c w =>
    obtain ⟨hc, hw⟩ := List.forall_mem_cons.mp hw
    rw [List.foldl_cons, h.step, enter_atom h.fault hc, foldl_atom (by exact h.fault) rfl hw]
    simp only [settle, endAtom, moveTo, List.reverse_append, List.reverse_reverse, List.reverse_cons,
      List.reverse_nil, List.nil_append, List.singleton_append, h.offset, hx]
    simp [deliver_eq, Nat.add_assoc, Nat.add_comm 1]

theorem foldl_string (h : S.Ready j) {r v : Bytes} (hr : Characters r v []) :
    (0x22 :: r).foldl step S = (S.deliver (.string ⟨j, j + 1 + r.length⟩ v)).moveTo (j + 1 + r.length) := by
  rw [List.foldl_cons, h.step, enter_string h.fault, foldl_characters hr rfl (by exact h.fault) rfl]
  simp [deliver_eq, moveTo, h.offset]

theorem foldl_list (h : S.Ready j) {v : Bytes} {ys : List Form}
    (hv : ∀ {s : Scanner}, s.Ready (j + 1) →
      (v.foldl step s).settle = (s.deliverAll ys).moveTo (j + 1 + v.length)) :
    (0x28 :: (v ++ [0x29])).foldl step S =
      (S.deliver (.list ⟨j, j + 1 + v.length + 1⟩ ys.reverse)).moveTo (j + 1 + v.length + 1) := by
  have hopen : S.step 0x28 = { S with frames := .list j [] :: S.frames, offset := j + 1 } := by
    rw [h.step, enter_open h.fault, h.offset]
    rfl
  have hin : Ready { S with frames := .list j [] :: S.frames, offset := j + 1 } (j + 1) := ⟨h.fault, h.mode, rfl⟩
  have hitems := deliverAll_list hin.mode (rfl : _ = Frame.list j [] :: S.frames) ys
  have hS := hin.deliverAll ys (j + 1 + v.length)
  rw [List.foldl_cons, hopen, List.foldl_append, foldl_settled hS (hv hin) (by decide)]
  show Scanner.step _ 0x29 = _
  rw [hS.step, enter_close hS.fault (congrArg Scanner.frames hitems), hitems, deliver_eq, deliver_eq]
  rfl

theorem foldl_quote (h : S.Ready j) {v : Bytes} {x : Form}
    (hv : ∀ {s : Scanner}, s.Ready (j + 1) →
      (v.foldl step s).settle = (s.deliverAll [x]).moveTo (j + 1 + v.length)) :
    ((0x27 :: v).foldl step S).settle = (S.deliver (quotedForm j x)).moveTo (j + 1 + v.length) := by
  have hopen : S.step 0x27 = { S with frames := .quote j :: S.frames, offset := j + 1 } := by
    rw [h.step, enter_quote h.fault, h.offset]
    rfl
  have hin : Ready { S with frames := .quote j :: S.frames, offset := j + 1 } (j + 1) := ⟨h.fault, h.mode, rfl⟩
  rw [List.foldl_cons, hopen, hv hin]
  show (Scanner.deliver _ x).moveTo _ = _
  rw [deliver_eq, deliver_eq]
  rfl

end Scanner

open Scanner in
/-- **A scanner delivers the forms of a layout**, whatever is open in it. -/
theorem Laid.run {i : Nat} {u : Bytes} {xs : List Form} (h : Laid i u xs) {s : Scanner} (hs : s.Ready i) :
    (u.foldl step s).settle = (s.deliverAll xs).moveTo (i + u.length) := by
  induction h generalizing s with
  | nil =>
    rw [← hs.offset]
    exact hs.settle
  | @space i u xs c _ hc ih =>
    have hS := hs.deliverAll xs (i + u.length)
    rw [List.foldl_append, foldl_settled hS (ih hs) (isDelimiter_of_isSpace hc), List.length_append]
    show settle (step _ c) = _
    rw [hS.step, enter_space hc, moveTo_moveTo]
    exact (hs.deliverAll xs _).settle
  | @comment i u v xs _ hv ih =>
    have hS := hs.deliverAll xs (i + u.length)
    rw [List.foldl_append, foldl_settled hS (ih hs) (by decide), foldl_lineComment hS hv, moveTo_moveTo,
      (hs.deliverAll xs _).settle]
    simp [Nat.add_assoc]
  | @atom i u w x xs _ hu hne hw hx ih =>
    have hS := hs.deliverAll xs (i + u.length)
    have hrun := ih hs
    -- the last byte of `u` has ended every atom
    rw [settle_of_atBoundary hs.mode hu (fault_of_settle (hrun ▸ hS.fault))] at hrun
    rw [List.foldl_append, hrun, foldl_word hS hne hw hx, List.length_append, ← Nat.add_assoc, ← deliverAll_cons]
  | @string i u r v xs _ hr ih =>
    have hS := hs.deliverAll xs (i + u.length)
    rw [List.foldl_append, foldl_settled hS (ih hs) (by decide), foldl_string hS hr, ← deliverAll_cons,
      (hs.deliverAll _ _).settle]
    simp [Nat.add_assoc, Nat.add_comm 1]
  | @list i u v xs ys _ _ ih₁ ih₂ =>
    have hS := hs.deliverAll xs (i + u.length)
    rw [List.foldl_append, foldl_settled hS (ih₁ hs) (by decide), foldl_list hS ih₂, ← deliverAll_cons,
      (hs.deliverAll _ _).settle]
    simp [Nat.add_assoc, Nat.add_comm 1]
  | @quote i u v x xs _ _ hstop ih₁ ih₂ =>
    have hS := hs.deliverAll xs (i + u.length)
    rw [List.foldl_append, foldl_settled hS (ih₁ hs) (by decide), foldl_quote hS ih₂, ← deliverAll_cons]
    simp [Nat.add_assoc, Nat.add_comm 1]

/-! ## Behind a layout -/

/-- The second text does not go on with an atom of the first one. -/
def Apart (p v : Bytes) : Prop := EndsWord v ∨ AtBoundary p

theorem Scanner.finish_settle {s : Scanner} {i : Nat} (h : s.settle.Ready i) : s.finish = s.settle.finish := by
  unfold settle at h ⊢
  split at h
  · next start w hm =>
    simp [finish, hm, h.mode, h.fault, fault_of_endAtom h.fault]
  · rfl

/-- Behind the layout of a text's forms the scanner starts again. -/
theorem Laid.finish_append {p v : Bytes} {xs : List Form} (h : Laid 0 p xs) (ha : Apart p v) :
    ((p ++ v).foldl Scanner.step {}).finish = (v.foldl Scanner.step (Scanner.behind p.length xs {})).finish := by
  have hs : Scanner.Ready {} 0 := ⟨rfl, rfl, rfl⟩
  have hstart : (Scanner.deliverAll {} xs).moveTo (0 + p.length) = Scanner.behind p.length xs {} := by
    rw [Scanner.deliverAll_top rfl rfl, Nat.zero_add]
    simp [Scanner.behind, Scanner.moveTo, Mode.shift]
  have hS := hs.deliverAll xs (0 + p.length)
  have hrun := h.run hs
  rw [hstart] at hS hrun
  rw [List.foldl_append]
  cases v with
  | nil =>
    show (p.foldl Scanner.step {}).finish = _
    rw [Scanner.finish_settle (hrun ▸ hS), hrun]
    rfl
  | cons c v =>
    rcases ha with hc | hp
    · rw [Scanner.foldl_settled hS hrun (hc c rfl)]
    · rw [Scanner.settle_of_atBoundary rfl hp (Scanner.fault_of_settle (hrun ▸ hS.fault))] at hrun
      rw [hrun]

/-- **A text goes on behind a layout as it does alone.** -/
theorem scan_laid {p v : Bytes} {xs : List Form} (h : Laid 0 p xs) (ha : Apart p v) :
    scan (p ++ v) =
      (xs.reverse ++ (scan v).1.map (Form.shift p.length), (scan v).2.map (Fault.shift p.length)) := by
  rw [scan_eq, h.finish_append ha, Scanner.foldl_step_behind, Scanner.finish_behind, scan_eq v]
  simp only [Scanner.behind, List.reverse_append, List.map_reverse]

/-! ## The layout of what is open -/

/-- A text between forms: the layout of the top level forms, and inside it that of every open list and the blanks
behind every open quote mark. -/
inductive Opened : List Frame → List Form → Bytes → Prop
  | top {xs : List Form} {p : Bytes} : Laid 0 p xs → Opened [] xs p
  | list {outer : List Frame} {xs items : List Form} {p u : Bytes} :
      Opened outer xs p → Laid (p.length + 1) u items → Opened (.list p.length items :: outer) xs (p ++ 0x28 :: u)
  | quote {outer : List Frame} {xs : List Form} {p u : Bytes} :
      Opened outer xs p → Laid (p.length + 1) u [] → Opened (.quote p.length :: outer) xs (p ++ 0x27 :: u)

/-- A text that starts with something other than a blank. -/
def FormDue (v : Bytes) : Prop := ∃ c t, v = c :: t ∧ isSpace c = false ∧ c ≠ byte ';'

theorem FormDue.ne_nil {v : Bytes} (h : FormDue v) : v ≠ [] := by
  obtain ⟨c, t, rfl, -⟩ := h
  exact List.cons_ne_nil c t

theorem FormDue.append {v : Bytes} (h : FormDue v) (z : Bytes) : FormDue (v ++ z) := by
  obtain ⟨c, t, rfl, hc⟩ := h
  exact ⟨c, t ++ z, rfl, hc⟩

theorem FormDue.endsWord {v : Bytes} (h : FormDue v) (hv : EndsWord v) (z : Bytes) : EndsWord (v ++ z) := by
  obtain ⟨c, t, rfl, -⟩ := h
  exact hv

theorem FormDue.solid {v : Bytes} (h : FormDue v) : Solid v := by
  obtain ⟨c, t, rfl, hsp, hcm⟩ := h
  exact skipBlanks_solid hsp hcm

namespace Opened

variable {frames : List Frame} {done : List Form} {q : Bytes}

/-- Blanks belong to the innermost frame. -/
theorem blank (h : Opened frames done q) {g : Bytes} (hg : ∀ {i u xs}, Laid i u xs → Laid i (u ++ g) xs) :
    Opened frames done (q ++ g) := by
  cases h with
  | top h => exact .top (hg h)
  | list ho h =>
    rw [List.append_assoc, List.cons_append]
    exact .list ho (hg h)
  | quote ho h =>
    rw [List.append_assoc, List.cons_append]
    exact .quote ho (hg h)

/-- A complete form is handed over: it belongs to the innermost list, and quote marks before it belong to it. -/
theorem handOver (h : Opened frames done q) {w : Bytes} {x : Form}
    (hw : ∀ {i u xs}, Laid i u xs → u <:+ q → i + u.length = q.length → Laid i (u ++ w) (x :: xs))
    (hstop : x.span.stop = q.length + w.length) :
    Opened (handOver frames x).1 ((RegisterMachine.handOver frames x).2.toList ++ done) (q ++ w) := by
  induction h generalizing w x with
  | top h => exact .top (hw h (List.suffix_refl _) (Nat.zero_add _))
  | @list outer xs items p u ho h _ =>
    rw [List.append_assoc, List.cons_append]
    refine .list ho (hw h ⟨p ++ [0x28], by simp⟩ ?_)
    simp [Nat.add_assoc, Nat.add_comm 1]
  | @quote outer xs p u ho h ih =>
    have hlen : p.length + 1 + u.length = (p ++ 0x27 :: u).length := by simp [Nat.add_assoc, Nat.add_comm 1]
    have hx : Laid (p.length + 1) (u ++ w) [x] := hw h ⟨p ++ [0x27], by simp⟩ hlen
    rw [List.append_assoc, List.cons_append]
    refine ih (w := 0x27 :: (u ++ w)) (x := quotedForm p.length x) ?_ ?_
    · intro i u' xs' hl _ hi
      rw [← hi] at hx ⊢
      refine .quote hl hx ?_
      rw [hi, hstop, ← hlen, List.length_append, Nat.add_assoc]
    · show x.span.stop = _
      rw [hstop, ← hlen, List.length_cons, List.length_append]
      omega

/-- The layout of the top level forms, and behind it nothing or the outermost open frame. -/
theorem base (h : Opened frames done q) : ∃ p v, q = p ++ v ∧ Laid 0 p done ∧
    (v = [] ∧ frames = [] ∨ FormDue v ∧ EndsWord v) := by
  have hopen (c : UInt8) (u : Bytes) (hc : isDelimiter c = true ∧ isSpace c = false ∧ c ≠ byte ';') {v : Bytes}
      (hv : v = [] ∨ FormDue v ∧ EndsWord v) : FormDue (v ++ c :: u) ∧ EndsWord (v ++ c :: u) := by
    rcases hv with rfl | ⟨hdue, hends⟩
    · exact ⟨⟨c, u, rfl, hc.2⟩, by simp [EndsWord, hc.1]⟩
    · exact ⟨hdue.append _, hdue.endsWord hends _⟩
  induction h with
  | @top xs p h => exact ⟨p, [], (List.append_nil p).symm, h, .inl ⟨rfl, rfl⟩⟩
  | @list outer xs items p u _ _ ih =>
    obtain ⟨p, v, rfl, hp, hv⟩ := ih
    exact ⟨p, v ++ 0x28 :: u, List.append_assoc .., hp, .inr (hopen 0x28 u (by decide) (hv.imp_left And.left))⟩
  | @quote outer xs p u _ _ ih =>
    obtain ⟨p, v, rfl, hp, hv⟩ := ih
    exact ⟨p, v ++ 0x27 :: u, List.append_assoc .., hp, .inr (hopen 0x27 u (by decide) (hv.imp_left And.left))⟩

end Opened

/-- The layout of the top level forms `done`, and behind it a form that is not complete. -/
def Stuck (done : List Form) (b : Bytes) : Prop := ∃ p v, b = p ++ v ∧ Laid 0 p done ∧ Apart p v ∧ FormDue v

theorem Stuck.append {done : List Form} {b : Bytes} (h : Stuck done b) (z : Bytes) : Stuck done (b ++ z) := by
  obtain ⟨p, v, rfl, hp, ha, hdue⟩ := h
  exact ⟨p, v ++ z, List.append_assoc .., hp, ha.imp_left fun hends => hdue.endsWord hends z, hdue.append z⟩

/-- What is not complete starts with the outermost open frame, or where no frame is open. -/
theorem Opened.stuck {frames : List Frame} {done : List Form} {q z : Bytes} (h : Opened frames done q)
    (ha : Apart q z) (hz : FormDue z ∨ frames ≠ []) : Stuck done (q ++ z) := by
  obtain ⟨p, v, rfl, hp, ⟨rfl, hf⟩ | ⟨hdue, hends⟩⟩ := h.base
  · rw [List.append_nil] at ha ⊢
    exact ⟨p, z, rfl, hp, ha, hz.resolve_right (absurd hf)⟩
  · exact ⟨p, v ++ z, List.append_assoc .., hp, .inl (hdue.endsWord hends z), hdue.append z⟩

/-! ## What a scanner has read -/

/-- The inside of a string so far: what completes it completes the string. -/
def Spelling (r v : Bytes) : Prop := ∀ s t, Characters s t [] → Characters (r ++ s) (v ++ t) []

namespace Spelling

variable {r v : Bytes} {c : UInt8}

theorem nil : Spelling [] [] := fun _ _ h => h

theorem plain (h : Spelling r v) (h22 : c ≠ 0x22) (h5C : c ≠ 0x5C) : Spelling (r ++ [c]) (v ++ [c]) := by
  intro s t hs
  rw [List.append_assoc, List.append_assoc]
  exact h _ _ (.plain h22 h5C hs)

theorem escaped (h : Spelling r v) (c : UInt8) : Spelling (r ++ [0x5C, c]) (v ++ [c]) := by
  intro s t hs
  rw [List.append_assoc, List.append_assoc]
  exact h _ _ (.escaped hs)

theorem close (h : Spelling r v) : Characters (r ++ [0x22]) v [] := by
  have := h _ _ .close
  rwa [List.append_nil] at this

end Spelling

/-- What stands before a scanner in this mode: a text between forms, and the bytes of what it is in the
middle of. -/
def Mode.Follows (frames : List Frame) (done : List Form) (b : Bytes) : Mode → Prop
  | blank => Opened frames done b ∧ AtBoundary b
  | comment => ∃ q v, b = q ++ byte ';' :: v ∧ (∀ c ∈ v, c ≠ byte '\n') ∧ Opened frames done q
  | atom start w => ∃ q, b = q ++ w.reverse ∧ start = q.length ∧ w ≠ [] ∧ (∀ c ∈ w, isDelimiter c = false) ∧
      Opened frames done q ∧ AtBoundary q
  | string start w => ∃ q r, b = q ++ 0x22 :: r ∧ start = q.length ∧ Opened frames done q ∧ Spelling r w.reverse
  | escape start w => ∃ q r, b = q ++ 0x22 :: (r ++ [0x5C]) ∧ start = q.length ∧ Opened frames done q ∧
      Spelling r w.reverse

theorem atBoundary_concat {u : Bytes} {c : UInt8} (hc : isDelimiter c = true) : AtBoundary (u ++ [c]) := by
  simp [AtBoundary, hc]

theorem AtBoundary.suffix {u q : Bytes} (h : AtBoundary q) (hu : u <:+ q) : AtBoundary u := by
  obtain ⟨a, rfl⟩ := hu
  intro c hc
  refine h c ?_
  rw [List.getLast?_append, hc]
  rfl

theorem formDue_word {w : Bytes} (hne : w ≠ []) (hw : ∀ c ∈ w, isDelimiter c = false) : FormDue w := by
  cases w with
  | nil => exact absurd rfl hne
  | cons c w =>
    obtain ⟨hsp, -, -, -, -, hcm⟩ := not_delimiter (hw c List.mem_cons_self)
    exact ⟨c, w, rfl, hsp, hcm⟩

namespace Scanner

variable {s : Scanner} {b q : Bytes} {c : UInt8}

/-- The text before a scanner is laid out as the forms that it holds. -/
structure Lays (s : Scanner) (b : Bytes) : Prop where
  offset : s.fault = none → s.offset = b.length
  follows : s.fault = none → s.mode.Follows s.frames s.done b
  stuck : s.fault ≠ none → Stuck s.done b

theorem Lays.of_fault (hf : s.fault ≠ none) (h : Stuck s.done b) : s.Lays b :=
  ⟨fun hn => absurd hn hf, fun hn => absurd hn hf, fun _ => h⟩

theorem Lays.of_follows (hf : s.fault = none) (ho : s.offset = b.length) (h : s.mode.Follows s.frames s.done b) :
    s.Lays b := ⟨fun _ => ho, fun _ => h, absurd hf⟩

/-- A form that is complete here, with the text `w`, is delivered. -/
theorem opened_deliver (h : Opened s.frames s.done q) {w : Bytes} {x : Form}
    (hw : ∀ {i u xs}, Laid i u xs → u <:+ q → i + u.length = q.length → Laid i (u ++ w) (x :: xs))
    (hstop : x.span.stop = q.length + w.length) : Opened (s.deliver x).frames (s.deliver x).done (q ++ w) := by
  rw [deliver_eq]
  exact h.handOver hw hstop

/-- An atom that ends here is delivered, or nothing is. -/
theorem opened_endAtom (hf : s.fault = none) (h : Opened s.frames s.done q) (hb : AtBoundary q) {w : Bytes}
    (hne : w ≠ []) (hw : ∀ c ∈ w, isDelimiter c = false) :
    ((s.endAtom q.length w).fault = none →
      Opened (s.endAtom q.length w).frames (s.endAtom q.length w).done (q ++ w.reverse)) ∧
    ((s.endAtom q.length w).fault ≠ none → (s.endAtom q.length w).done = s.done) := by
  unfold endAtom
  split
  · next x hx =>
    refine ⟨fun _ => opened_deliver h ?_ ?_, fun hn => absurd ((deliver_fault s x).trans hf) hn⟩
    · intro i u xs hl hu hi
      refine .atom hl (hb.suffix hu) (by simpa using hne) (by simpa using hw) ?_
      rwa [hi]
    · rw [atom_span hx]
      rfl
  · exact ⟨fun hn => by simp [fail] at hn, fun _ => rfl⟩
  · exact ⟨fun hn => by simp [fail] at hn, fun _ => rfl⟩

/-! ### One byte -/

theorem enter_close_of_ne (hf : s.fault = none)
    (hfr : ∀ start items outer, s.frames ≠ .list start items :: outer) :
    s.enter 0x29 = s.fail s.offset .unbalanced := by
  unfold enter
  rw [if_neg (by simp [hf]), if_neg (by decide), if_neg (by decide), if_neg (by decide), if_pos (by decide)]
  split
  · next h => exact absurd h (hfr _ _ _)
  · rfl

/-- The last byte of a list or a string delivers it. -/
theorem lays_deliver (hf : s.fault = none) (hc : isDelimiter c = true) {x : Form}
    (h : Opened (s.deliver x).frames (s.deliver x).done (q ++ [c])) {offset : Nat} (ho : offset = q.length + 1) :
    ((s.deliver x).moveTo offset).Lays (q ++ [c]) := by
  refine .of_follows ((deliver_fault s x).trans hf) (by simpa [moveTo] using ho) ?_
  show Mode.Follows _ _ _ (s.deliver x).mode
  rw [deliver_mode]
  exact ⟨h, atBoundary_concat hc⟩

/-- A closing bracket. -/
theorem lays_close (hf : s.fault = none) (ho : s.offset = q.length) (h : Opened s.frames s.done q) :
    ((s.enter 0x29).moveTo (q.length + 1)).Lays (q ++ [0x29]) := by
  by_cases hfr : ∃ start items outer, s.frames = .list start items :: outer
  · obtain ⟨start, items, outer, hfr⟩ := hfr
    rw [enter_close hf hfr]
    rw [hfr] at h
    cases h with
    | @list _ _ _ p u hp hu =>
      have hlen : (p ++ 0x28 :: u).length = p.length + 1 + u.length := by simp [Nat.add_assoc, Nat.add_comm 1]
      have hopened := opened_deliver (s := { s with frames := outer }) (w := 0x28 :: (u ++ [0x29]))
        (x := .list ⟨p.length, s.offset + 1⟩ items.reverse) hp ?_ ?_
      · rw [← List.cons_append, ← List.append_assoc] at hopened
        exact lays_deliver (s := { s with frames := outer }) hf (by decide) hopened rfl
      · intro i u' xs hl _ hi
        rw [ho, hlen, ← hi]
        rw [← hi] at hu
        exact .list hl hu
      · show s.offset + 1 = _
        rw [ho, hlen, List.length_cons, List.length_append]
        simp [Nat.add_assoc, Nat.add_comm 1]
  · rw [enter_close_of_ne hf fun start items outer he => hfr ⟨start, items, outer, he⟩]
    refine .of_fault (by simp [fail, moveTo]) (h.stuck (.inl ?_) (.inl ⟨0x29, [], rfl, by decide, by decide⟩))
    simp [EndsWord, isDelimiter]

/-- A byte between forms. -/
theorem lays_enter (hf : s.fault = none) (hm : s.mode = .blank) (ho : s.offset = q.length)
    (h : Opened s.frames s.done q) (hc : isDelimiter c = true ∨ AtBoundary q) :
    ((s.enter c).moveTo (q.length + 1)).Lays (q ++ [c]) := by
  have hlen : q.length + 1 = (q ++ [c]).length := by simp
  by_cases hdel : isDelimiter c = true
  · have hb : AtBoundary (q ++ [c]) := atBoundary_concat hdel
    by_cases hsp : isSpace c = true
    · rw [enter_space hsp]
      refine .of_follows hf hlen ?_
      show Mode.Follows _ _ _ s.mode
      rw [hm]
      exact ⟨h.blank fun hl => .space hl hsp, hb⟩
    · have hcases : c = 0x28 ∨ c = 0x29 ∨ c = 0x22 ∨ c = 0x27 ∨ c = byte ';' := by
        simp only [isDelimiter, Bool.or_eq_true, beq_iff_eq] at hdel
        have : byte ';' = 0x3B := rfl
        grind
      rcases hcases with rfl | rfl | rfl | rfl | rfl
      · rw [enter_open hf]
        refine .of_follows hf hlen ?_
        show Mode.Follows (.list s.offset [] :: s.frames) _ _ s.mode
        rw [hm, ho]
        exact ⟨.list h .nil, hb⟩
      · exact lays_close hf ho h
      · rw [enter_string hf]
        exact .of_follows hf hlen ⟨q, [], rfl, ho, h, .nil⟩
      · rw [enter_quote hf]
        refine .of_follows hf hlen ?_
        show Mode.Follows (.quote s.offset :: s.frames) _ _ s.mode
        rw [hm, ho]
        exact ⟨.quote h .nil, hb⟩
      · rw [enter_comment hf]
        exact .of_follows hf hlen ⟨q, [], rfl, by simp, h⟩
  · have hword : isDelimiter c = false := by simpa using hdel
    rw [enter_atom hf hword]
    exact .of_follows hf hlen ⟨q, rfl, ho, by simp, by simpa using hword, h, hc.resolve_left hdel⟩

/-- The closing quote of a string. -/
theorem lays_endString (hf : s.fault = none) {r w : Bytes} (ho : s.offset = (q ++ 0x22 :: r).length)
    (h : Opened s.frames s.done q) (hr : Spelling r w.reverse) :
    ((s.deliver (.string ⟨q.length, s.offset + 1⟩ w.reverse)).moveTo (s.offset + 1)).Lays
      (q ++ 0x22 :: r ++ [0x22]) := by
  have hstop : s.offset + 1 = q.length + 1 + (r ++ [0x22]).length := by
    rw [ho]
    simp [Nat.add_assoc, Nat.add_comm 1]
  have hopened := opened_deliver (s := s) (w := 0x22 :: (r ++ [0x22]))
    (x := .string ⟨q.length, s.offset + 1⟩ w.reverse) h ?_ ?_
  · rw [← List.cons_append, ← List.append_assoc] at hopened
    exact lays_deliver hf (by decide) hopened (congrArg (· + 1) ho)
  · intro i u xs hl _ hi
    rw [hstop, ← hi]
    exact .string hl hr.close
  · show s.offset + 1 = _
    rw [hstop, List.length_cons, Nat.add_assoc, Nat.add_comm 1]

/-- **The text before a scanner stays laid out** with every byte. -/
theorem Lays.step (h : s.Lays b) (c : UInt8) : (s.step c).Lays (b ++ [c]) := by
  unfold Scanner.step
  by_cases hs : s.fault.isSome = true
  · rw [if_pos hs]
    have hf : s.fault ≠ none := Option.isSome_iff_ne_none.mp hs
    exact .of_fault hf ((h.stuck hf).append [c])
  have hf : s.fault = none := by simpa using hs
  have ho := h.offset hf
  have hfollows := h.follows hf
  have hlen : s.offset + 1 = (b ++ [c]).length := by simp [ho]
  rw [if_neg hs]
  unfold read
  cases hm : s.mode with
  | blank =>
    rw [hm] at hfollows
    dsimp only
    rw [ho]
    exact lays_enter hf hm ho hfollows.1 (.inr hfollows.2)
  | comment =>
    rw [hm] at hfollows
    obtain ⟨q, v, rfl, hv, hq⟩ := hfollows
    dsimp only
    split
    · next hc =>
      obtain rfl := eq_of_beq hc
      refine .of_follows hf hlen ⟨?_, atBoundary_concat (by decide)⟩
      rw [List.append_assoc, List.cons_append]
      exact hq.blank fun hl => .comment hl hv
    · next hc =>
      refine .of_follows hf hlen ?_
      show Mode.Follows _ _ _ s.mode
      rw [hm]
      refine ⟨q, v ++ [c], by simp, ?_, hq⟩
      simpa [or_imp, forall_and] using ⟨hv, by simpa using hc⟩
  | atom start w =>
    rw [hm] at hfollows
    obtain ⟨q, rfl, rfl, hne, hw, hq, hb⟩ := hfollows
    obtain ⟨hok, hbad⟩ := opened_endAtom hf hq hb hne hw
    dsimp only
    split
    · next hc =>
      by_cases he : (s.endAtom q.length w).fault = none
      · have := lays_enter he (endAtom_mode _ _ he) ((endAtom_offset _ _).trans ho) (hok he) (.inl hc)
        rwa [← ho] at this
      · obtain ⟨f, hfault⟩ := Option.ne_none_iff_exists.mp he
        rw [enter_of_fault hfault.symm]
        refine .of_fault he ?_
        show Stuck (s.endAtom q.length w).done _
        rw [hbad he, List.append_assoc]
        exact hq.stuck (.inr hb) (.inl ((formDue_word (by simpa using hne) (by simpa using hw)).append [c]))
    · next hc =>
      refine .of_follows hf hlen ⟨q, by simp, rfl, by simp, ?_, hq, hb⟩
      exact List.forall_mem_cons.mpr ⟨by simpa using hc, hw⟩
  | string start w =>
    rw [hm] at hfollows
    obtain ⟨q, r, rfl, rfl, hq, hr⟩ := hfollows
    dsimp only
    split
    · next hc =>
      obtain rfl := eq_of_beq hc
      exact lays_endString hf ho hq hr
    next h22 =>
    split
    · next hc =>
      obtain rfl := eq_of_beq hc
      exact .of_follows hf hlen ⟨q, r, by simp, rfl, hq, hr⟩
    · next h5C =>
      refine .of_follows hf hlen ⟨q, r ++ [c], by simp, rfl, hq, ?_⟩
      rw [List.reverse_cons]
      exact hr.plain (by simpa using h22) (by simpa using h5C)
  | escape start w =>
    rw [hm] at hfollows
    obtain ⟨q, r, rfl, rfl, hq, hr⟩ := hfollows
    refine .of_follows hf hlen ⟨q, r ++ [0x5C, c], by simp, rfl, hq, ?_⟩
    rw [List.reverse_cons]
    exact hr.escaped c

theorem lays_foldl (b : Bytes) : (b.foldl Scanner.step {}).Lays b := by
  induction b using List.reverseRecOn with
  | nil => exact .of_follows rfl rfl ⟨.top .nil, by simp [AtBoundary]⟩
  | append_singleton b c ih =>
    rw [List.foldl_append]
    exact ih.step c

/-! ### The end of the text -/

/-- A text is a layout of the forms that are complete, and a rest: blanks if there is no fault, else a form that is
not complete. -/
def Covers (s : Scanner) (b : Bytes) : Prop := ∃ p v, b = p ++ v ∧ Laid 0 p s.done ∧ Apart p v ∧
  (s.fault = none → Blanks v []) ∧ (s.fault ≠ none → FormDue v)

theorem Covers.of_stuck (hf : s.fault ≠ none) (h : Stuck s.done b) : s.Covers b := by
  obtain ⟨p, v, rfl, hp, ha, hdue⟩ := h
  exact ⟨p, v, rfl, hp, ha, fun hn => absurd hn hf, fun _ => hdue⟩

/-- Between forms nothing may be open. -/
theorem covers_of_opened (hf : s.fault = none) (h : Opened s.frames s.done b) {z : Bytes} (hz : EndsWord z)
    (hblank : Blanks z []) :
    (if s.frames.isEmpty then s else s.fail s.offset .endOfInput).Covers (b ++ z) := by
  split
  · next hfr =>
    rw [List.isEmpty_iff.mp hfr] at h
    cases h with
    | top h => exact ⟨b, z, rfl, h, .inl hz, fun _ => hblank, absurd hf⟩
  · next hfr =>
    refine .of_stuck (by simp [fail]) (h.stuck (.inl hz) (.inr ?_))
    simpa using hfr

theorem Lays.finish (h : s.Lays b) : s.finish.Covers b := by
  unfold Scanner.finish
  by_cases hs : s.fault.isSome = true
  · rw [if_pos hs]
    have hf : s.fault ≠ none := Option.isSome_iff_ne_none.mp hs
    exact .of_stuck hf (h.stuck hf)
  have hf : s.fault = none := by simpa using hs
  have hfollows := h.follows hf
  have hnil : EndsWord [] := by simp [EndsWord]
  rw [if_neg hs]
  cases hm : s.mode with
  | blank =>
    rw [hm] at hfollows
    have := covers_of_opened hf hfollows.1 hnil .nil
    rwa [List.append_nil] at this
  | comment =>
    rw [hm] at hfollows
    obtain ⟨q, v, rfl, hv, hq⟩ := hfollows
    have hblank : Blanks (byte ';' :: (v ++ [])) [] := .comment hv (by simp [EndsLine]) .nil
    rw [List.append_nil] at hblank
    exact covers_of_opened hf hq (by simp [EndsWord, isDelimiter, byte]) hblank
  | atom start w =>
    rw [hm] at hfollows
    obtain ⟨q, rfl, rfl, hne, hw, hq, hb⟩ := hfollows
    obtain ⟨hok, hbad⟩ := opened_endAtom hf hq hb hne hw
    dsimp only
    by_cases he : (s.endAtom q.length w).fault = none
    · have := covers_of_opened he (hok he) hnil .nil
      rw [List.append_nil] at this
      simpa [he] using this
    · obtain ⟨f, hfault⟩ := Option.ne_none_iff_exists.mp he
      rw [← hfault]
      refine .of_stuck he ?_
      show Stuck (s.endAtom q.length w).done _
      rw [hbad he]
      exact hq.stuck (.inr hb) (.inl (formDue_word (by simpa using hne) (by simpa using hw)))
  | string start w =>
    rw [hm] at hfollows
    obtain ⟨q, r, rfl, -, hq, -⟩ := hfollows
    exact .of_stuck (by simp [fail]) (hq.stuck (.inl (by simp [EndsWord, isDelimiter]))
      (.inl ⟨0x22, r, rfl, by decide, by decide⟩))
  | escape start w =>
    rw [hm] at hfollows
    obtain ⟨q, r, rfl, -, hq, -⟩ := hfollows
    exact .of_stuck (by simp [fail]) (hq.stuck (.inl (by simp [EndsWord, isDelimiter]))
      (.inl ⟨0x22, r ++ [0x5C], rfl, by decide, by decide⟩))

end Scanner

/-- **Every text is laid out as its forms.**  Behind the layout of the forms that are read stand only blanks, if
the text is read to its end, or else a form that cannot be read. -/
theorem scan_layout (b : Bytes) : ∃ p v, b = p ++ v ∧ Laid 0 p (scan b).1.reverse ∧ Apart p v ∧
    ((scan b).2 = none → Blanks v []) ∧ ((scan b).2 ≠ none → FormDue v) := by
  obtain ⟨p, v, hb, hp, h⟩ := (Scanner.lays_foldl b).finish
  refine ⟨p, v, hb, ?_, h⟩
  rw [scan_eq, List.reverse_reverse]
  exact hp

end RegisterMachine
