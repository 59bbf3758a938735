import RegisterMachine.Proofs.FirstForm

/-!
# Names in the order of the text

The names of a form that is read stand in the text at the offsets where their spans start, and they come in the
order of the text.

* `Form.sites`: the names of a form with their offsets, from left to right.
* `Placed text sites`: the names stand in the text at their offsets, which ascend.
* `Scanner.Tracks`: what a scanner holds is placed in the text before it.
* `Source.placed_of_readOne`: so is the form that is read from a source.
-/

namespace RegisterMachine

/-! ## Sites -/

/-- A name and the offset at which it stands. -/
structure Site where
  name : Bytes
  offset : Nat
deriving DecidableEq

namespace Form

mutual

/-- The names in a form, from left to right.  The word at the head of a quotation is left out: in the text it may
be a quote mark. -/
def sites : Form → List Site
  | ident span name => [⟨name, span.start⟩]
  | list _ items => if (tagged? quoteWord items).isSome then (sitesIn items).tail else sitesIn items
  | _ => []

/-- The names in some forms, from left to right. -/
def sitesIn : List Form → List Site
  | [] => []
  | x :: rest => x.sites ++ sitesIn rest

end

theorem sitesIn_append (xs ys : List Form) : sitesIn (xs ++ ys) = sitesIn xs ++ sitesIn ys := by
  induction xs with
  | nil => rfl
  | cons x xs ih => rw [List.cons_append, sitesIn, sitesIn, ih, List.append_assoc]

theorem sitesIn_reverse_cons (x : Form) (xs : List Form) :
    sitesIn (x :: xs).reverse = sitesIn xs.reverse ++ x.sites := by
  rw [List.reverse_cons, sitesIn_append, sitesIn, sitesIn, List.append_nil]

theorem sites_list_sublist (span : Span) (items : List Form) :
    (list span items).sites.Sublist (sitesIn items) := by
  rw [sites]
  split
  · exact List.tail_sublist _
  · exact List.Sublist.refl _

theorem sites_quotedForm (start : Nat) (x : Form) : (quotedForm start x).sites = x.sites := by
  have htag : (tagged? quoteWord [ident ⟨start, start + 1⟩ quoteWord, x]).isSome = true := by simp [tagged?]
  rw [quotedForm, sites, if_pos htag, sitesIn, sites, sitesIn, sitesIn, List.append_nil]
  rfl

theorem sublist_sitesIn {x : Form} {xs : List Form} (h : x ∈ xs) : x.sites.Sublist (sitesIn xs) := by
  induction xs with
  | nil => cases h
  | cons y ys ih =>
    rcases List.mem_cons.mp h with rfl | h
    · exact List.sublist_append_left _ _
    · exact (ih h).trans (List.sublist_append_right _ _)

end Form

/-- The names stand in the text at their offsets, one behind the other. -/
structure Placed (text : Bytes) (l : List Site) : Prop where
  ascending : l.Pairwise (fun a b => a.offset < b.offset)
  inside : ∀ a ∈ l, a.offset < text.length
  written : ∀ a ∈ l, a.name <+: text.drop a.offset

namespace Placed

variable {text : Bytes} {l l' : List Site}

theorem sublist (h : Placed text l) (hl : l'.Sublist l) : Placed text l' where
  ascending := h.ascending.sublist hl
  inside a ha := h.inside a (hl.subset ha)
  written a ha := h.written a (hl.subset ha)

theorem append (h : Placed text l) (more : Bytes) : Placed (text ++ more) l where
  ascending := h.ascending
  inside a ha := by
    have := h.inside a ha
    rw [List.length_append]
    omega
  written a ha := by
    rw [List.drop_append_of_le_length (Nat.le_of_lt (h.inside a ha))]
    exact (h.written a ha).trans (List.prefix_append _ _)

/-- A name at the end of the text is placed behind those before it. -/
theorem concat (h : Placed text l) {w : Bytes} {start : Nat} (hw : w = text.drop start) (hne : w ≠ [])
    (hl : ∀ a ∈ l, a.offset < start) : Placed text (l ++ [⟨w, start⟩]) where
  ascending := by
    refine List.pairwise_append.mpr ⟨h.ascending, List.pairwise_singleton _ _, fun a ha b hb => ?_⟩
    obtain rfl := List.mem_singleton.mp hb
    exact hl a ha
  inside := by
    refine List.forall_mem_append.mpr ⟨h.inside, List.forall_mem_singleton.mpr ?_⟩
    show start < text.length
    refine Nat.lt_of_not_le fun hle => hne ?_
    rw [hw, List.drop_eq_nil_of_le hle]
  written := by
    refine List.forall_mem_append.mpr ⟨h.written, List.forall_mem_singleton.mpr ?_⟩
    exact ⟨[], (List.append_nil w).trans hw⟩

end Placed

/-! ## Scanning -/

theorem sites_atom {start : Nat} {w : Bytes} {x : Form} (h : atom start w = .ok x) :
    x.sites = [] ∨ x.sites = [⟨w, start⟩] := by
  unfold atom at h
  split at h
  · next hn =>
    cases h
    left
    rcases number?_kind hn with ⟨n, rfl⟩ | ⟨v, rfl, -⟩ <;> rfl
  · split at h
    · cases h
    · cases h
      exact .inr rfl

/-- The names in what a frame holds. -/
def Frame.sites : Frame → List Site
  | list _ items => Form.sitesIn items.reverse
  | quote _ => []

theorem sites_handOver (frames : List Frame) (x : Form) :
    (handOver frames x).1.reverse.flatMap Frame.sites ++ ((handOver frames x).2.map Form.sites).getD [] =
      frames.reverse.flatMap Frame.sites ++ x.sites := by
  induction frames generalizing x with
  | nil => rfl
  | cons f outer ih =>
    cases f with
    | list start items =>
      simp only [handOver, List.reverse_cons, List.flatMap_append, List.flatMap_singleton, Frame.sites]
      rw [← List.reverse_cons, Form.sitesIn_reverse_cons]
      simp
    | quote start =>
      rw [handOver, ih, Form.sites_quotedForm]
      simp [Frame.sites]

namespace Scanner

variable {s : Scanner} {before : Bytes}

/-- The names in what a scanner holds, in the order in which it met them. -/
def sites (s : Scanner) : List Site := Form.sitesIn s.done.reverse ++ s.frames.reverse.flatMap Frame.sites

theorem sites_deliver (s : Scanner) (x : Form) : (s.deliver x).sites = s.sites ++ x.sites := by
  have h := sites_handOver s.frames x
  unfold deliver
  split
  · next frames ho =>
    rw [ho] at h
    simp only [Option.map_none, Option.getD_none, List.append_nil] at h
    rw [sites, sites, h, List.append_assoc]
  · next frames top ho =>
    obtain ⟨rfl, -⟩ := handOver_some ho
    rw [ho] at h
    simp only [List.reverse_nil, List.flatMap_nil, List.nil_append, Option.map_some, Option.getD_some] at h
    rw [sites, sites, Form.sitesIn_reverse_cons, h, List.append_assoc]
    simp

/-- What a scanner holds is placed in the text before it, and an atom that it is inside of is the end of
that text. -/
structure Tracks (s : Scanner) (before : Bytes) : Prop where
  sites : Placed before s.sites
  offset : s.fault = none → s.offset = before.length
  atom : s.fault = none → ∀ start w, s.mode = .atom start w →
    w ≠ [] ∧ w.reverse = before.drop start ∧ ∀ a ∈ s.sites, a.offset < start

theorem tracks_start : Tracks {} [] where
  sites := ⟨.nil, by simp [Scanner.sites, Form.sitesIn], by simp [Scanner.sites, Form.sitesIn]⟩
  offset _ := rfl
  atom := by simp

theorem Tracks.fail (h : s.Tracks before) (offset : Nat) (cause : Cause) : (s.fail offset cause).Tracks before :=
  ⟨h.sites, by simp [Scanner.fail], by simp [Scanner.fail]⟩

theorem Tracks.endAtom (h : s.Tracks before) (hf : s.fault = none) {start : Nat} {w : Bytes}
    (hm : s.mode = .atom start w) : (s.endAtom start w).Tracks before := by
  obtain ⟨hne, hw, hl⟩ := h.atom hf start w hm
  unfold Scanner.endAtom
  split
  · next x hx =>
    refine ⟨?_, ?_, ?_⟩
    · rw [sites_deliver]
      rcases sites_atom hx with hs | hs
      · rw [hs, List.append_nil]
        exact h.sites
      · rw [hs]
        exact h.sites.concat hw (by simpa using hne) hl
    · intro _
      have ho := endAtom_offset (s := s) start w
      rw [Scanner.endAtom, hx] at ho
      exact ho.trans (h.offset hf)
    · intro _ start w hmode
      rw [deliver_mode] at hmode
      cases hmode
  · exact h.fail _ _
  · exact h.fail _ _

theorem sites_enter (s : Scanner) (c : UInt8) : (s.enter c).sites.Sublist s.sites := by
  have hopen (f : Frame) (hf : f.sites = []) :
      (Scanner.sites { s with frames := f :: s.frames }).Sublist s.sites := by
    simp [Scanner.sites, hf]
  unfold enter
  split
  · exact .refl _
  split
  · exact .refl _
  split
  · exact .refl _
  split
  · exact hopen _ rfl
  split
  · split
    · next start items outer hframes =>
      -- the items of the list that is closed were those of its frame
      rw [sites_deliver]
      have hs : s.sites = Scanner.sites { s with frames := outer } ++ Form.sitesIn items.reverse := by
        simp [Scanner.sites, hframes, Frame.sites]
      rw [hs]
      exact (List.Sublist.refl _).append (Form.sites_list_sublist _ _)
    · exact .refl _
  split
  · exact hopen _ rfl
  split <;> exact .refl _

/-- Behind a byte that brings no name, unless it starts an atom. -/
theorem Tracks.behind (h : s.Tracks before) {c : UInt8} {t : Scanner} (hs : t.sites.Sublist s.sites)
    (ho : t.offset = before.length + 1)
    (hm : t.fault = none → ∀ start w, t.mode = .atom start w → start = before.length ∧ w = [c]) :
    t.Tracks (before ++ [c]) where
  sites := (h.sites.append [c]).sublist hs
  offset _ := by
    rw [ho, List.length_append]
    rfl
  atom hf start w hmode := by
    obtain ⟨rfl, rfl⟩ := hm hf start w hmode
    refine ⟨List.cons_ne_nil _ _, ?_, fun a ha => h.sites.inside a (hs.subset ha)⟩
    rw [List.drop_left]
    rfl

theorem Tracks.enter (h : s.Tracks before) (hb : s.fault = none → s.mode = .blank) (ho : s.offset = before.length)
    (c : UInt8) : Tracks { s.enter c with offset := before.length + 1 } (before ++ [c]) := by
  refine h.behind (sites_enter s c) rfl fun hf start w hmode => ?_
  rw [← ho]
  exact enter_mode hb hf hmode

/-- **A scanner keeps track of the text.** -/
theorem Tracks.step (h : s.Tracks before) (c : UInt8) : (s.step c).Tracks (before ++ [c]) := by
  unfold Scanner.step
  by_cases hs : s.fault.isSome = true
  · rw [if_pos hs]
    refine ⟨h.sites.append [c], ?_, ?_⟩ <;> intro hf <;> simp [hf] at hs
  have hf : s.fault = none := by simpa using hs
  have ho := h.offset hf
  rw [if_neg hs, ho]
  unfold Scanner.read
  cases hm : s.mode with
  | blank => exact h.enter (fun _ => hm) ho c
  | comment =>
    dsimp only
    split
    · exact h.behind (.refl _) rfl (by simp)
    · exact h.behind (.refl _) rfl (by simp [hm])
  | atom start w =>
    dsimp only
    split
    · exact (h.endAtom hf hm).enter (endAtom_mode start w) ((endAtom_offset ..).trans ho) c
    · obtain ⟨hne, hw, hl⟩ := h.atom hf start w hm
      have hstart : start ≤ before.length := by
        refine Nat.le_of_not_lt fun hlt => hne ?_
        rw [List.drop_eq_nil_of_le (Nat.le_of_lt hlt)] at hw
        exact List.reverse_eq_nil_iff.mp hw
      refine ⟨h.sites.append [c], fun _ => by simp, ?_⟩
      rintro - start w ⟨⟩
      refine ⟨List.cons_ne_nil _ _, ?_, hl⟩
      rw [List.reverse_cons, hw, List.drop_append_of_le_length hstart]
  | string start w =>
    dsimp only
    split
    · refine h.behind ?_ rfl (by simp [deliver_mode])
      show (s.deliver _).sites.Sublist _
      rw [sites_deliver]
      simp [Form.sites]
    · split <;> exact h.behind (.refl _) rfl (by simp)
  | escape start w => exact h.behind (.refl _) rfl (by simp)

theorem Tracks.finish (h : s.Tracks before) : Placed before s.finish.sites := by
  unfold Scanner.finish
  split
  · exact h.sites
  next hs =>
  have hf : s.fault = none := by simpa using hs
  split
  · exact h.sites
  · exact h.sites
  · next hm =>
    dsimp only
    split <;> exact (h.endAtom hf hm).sites
  · split <;> exact h.sites

theorem sites_sublist_of_mem {x : Form} (h : x ∈ s.done) : x.sites.Sublist s.sites :=
  (Form.sublist_sitesIn (List.mem_reverse.mpr h)).trans (List.sublist_append_left _ _)

theorem Tracks.next (h : s.Tracks before) {t r : Bytes} {x : Form} (hn : s.next t = .ok (x, r)) :
    Placed (before ++ t) x.sites := by
  induction t generalizing s before with
  | nil =>
    unfold Scanner.next at hn
    dsimp only at hn
    split at hn
    · next hd =>
      cases hn
      rw [List.append_nil]
      exact h.finish.sublist (sites_sublist_of_mem (hd ▸ List.mem_cons_self))
    · cases hn
    · cases hn
  | cons c t ih =>
    rw [List.append_cons]
    unfold Scanner.next at hn
    dsimp only at hn
    split at hn
    · next hd =>
      cases hn
      exact ((h.step c).sites.sublist (sites_sublist_of_mem (hd ▸ List.mem_cons_self))).append t
    · cases hn
    · exact ih (h.step c) hn

end Scanner

/-- **The names of what is read stand in the text in their order.** -/
theorem Source.placed_of_readOne {s : Source} {x : Form} (h : (s.readOne .form).1 = some x) :
    Placed s.text x.sites := by
  rw [readOne, Grammar.read] at h
  cases hn : Scanner.next {} s.text with
  | error f =>
    rw [hn] at h
    cases h
  | ok p =>
    rw [hn] at h
    cases h
    exact Scanner.tracks_start.next hn

end RegisterMachine
