import Mathlib.Data.List.Induction
import RegisterMachine.Machine.Compile
import RegisterMachine.Proofs.Lookup
import RegisterMachine.Proofs.TextOrder

/-!
# The registers of a controller are those that its program uses

Without a list of registers a machine gets those that its controller mentions.  They are found by a walk through
the forms of the controller, which knows nothing of instructions but three words.

* `registerSites`: where the instructions of a controller name a register.
* `InstructionShape.sites`, `InstructionShape.mentioned`: for one instruction, these places, the walk and the
  assembled instruction agree.
* `foldl_note`: the walk keeps the first of equal names.
* `allocateAll_inferRegisters`: what the walk finds can be allocated, whatever it walked through.
* `Machine.registers_inferred`: the whole, up to the runs of the machine.
-/

namespace RegisterMachine

/-! ## Names kept once -/

/-- The names with one more, unless it is known or always there. -/
def note (names : List Bytes) (name : Bytes) : List Bytes := mention names (.ident ⟨0, 0⟩ name)

/-- A register that has to be allocated. -/
def isAllocated (name : Bytes) : Bool := name != pcName && name != flagName

theorem note_eq (names : List Bytes) (name : Bytes) :
    note names name = if isAllocated name && !names.contains name then names ++ [name] else names := by
  unfold note mention isAllocated
  by_cases hpc : name = pcName
  · simp [hpc]
  by_cases hflag : name = flagName
  · simp [hflag]
  by_cases hin : name ∈ names <;> simp [hpc, hflag, hin]

/-- Noting names one after the other keeps the first of equal ones. -/
theorem foldl_note (l : List Bytes) : l.foldl note [] = (l.filter isAllocated).eraseDups := by
  induction l using List.reverseRecOn with
  | nil => rfl
  | append_singleton l name ih =>
    rw [List.foldl_append, ih, List.foldl_cons, List.foldl_nil, note_eq, List.filter_append, List.eraseDups_append]
    have hcontains : (l.filter isAllocated).eraseDups.contains name = (l.filter isAllocated).elem name := by
      rw [Bool.eq_iff_iff, List.contains_iff_mem, List.elem_iff, List.mem_eraseDups]
    rw [hcontains]
    by_cases ha : isAllocated name = true
    · rw [List.filter_cons_of_pos ha, List.filter_nil, ha, Bool.true_and, List.removeAll]
      cases hin : (l.filter isAllocated).elem name with
      | true =>
        rw [if_neg (by decide), List.filter_cons_of_neg (by rw [hin]; decide)]
        exact (List.append_nil _).symm
      | false =>
        rw [if_pos (by decide), List.filter_cons_of_pos (by rw [hin]; decide)]
        rfl
    · rw [List.filter_cons_of_neg ha, if_neg (by simp [ha])]
      exact (List.append_nil _).symm

/-- Names that can be allocated together. -/
structure Fresh (names : List Bytes) : Prop where
  nodup : names.Nodup
  allocated : ∀ name ∈ names, isAllocated name = true

theorem Fresh.note {names : List Bytes} (h : Fresh names) (name : Bytes) : Fresh (note names name) := by
  rw [note_eq]
  split
  · next hn =>
    obtain ⟨ha, hnot⟩ := Bool.and_eq_true_iff.mp hn
    refine ⟨?_, List.forall_mem_append.mpr ⟨h.allocated, List.forall_mem_singleton.mpr ha⟩⟩
    refine List.nodup_append.mpr ⟨h.nodup, List.pairwise_singleton _ _, fun a hmem b hb hab => ?_⟩
    obtain rfl := List.mem_singleton.mp hb
    subst hab
    simp [hmem] at hnot
  · exact h

theorem Fresh.mention {names : List Bytes} (h : Fresh names) (x : Form) : Fresh (mention names x) := by
  cases x with
  | ident span name => exact h.note name
  | int | float | string | list | missing => exact h

mutual

theorem Fresh.mentioned : ∀ {names : List Bytes}, Fresh names → ∀ x : Form, Fresh (mentioned names x)
  | _, h, .list _ items => by
    rw [RegisterMachine.mentioned]
    split
    · exact h.mention _
    split
    · exact h
    · exact Fresh.mentionedIn h items
  | _, h, .ident .. => h
  | _, h, .int .. => h
  | _, h, .float .. => h
  | _, h, .string .. => h
  | _, h, .missing => h

theorem Fresh.mentionedIn : ∀ {names : List Bytes}, Fresh names → ∀ xs : List Form, Fresh (mentionedIn names xs)
  | _, h, [] => h
  | _, h, x :: xs => Fresh.mentionedIn (Fresh.mentioned h x) xs

end

theorem Fresh.mentionedByElement {names : List Bytes} (h : Fresh names) (x : Form) :
    Fresh (mentionedByElement names x) := by
  unfold RegisterMachine.mentionedByElement
  split
  · dsimp only
    split
    · exact (h.mention _).mentioned _
    · exact h.mentioned _
  · exact h

theorem fresh_inferRegisters (controller : Form) : Fresh (inferRegisters controller) := by
  have hfold : ∀ (xs : List Form) {names : List Bytes}, Fresh names →
      Fresh (xs.foldl mentionedByElement names) := by
    intro xs
    induction xs with
    | nil => exact fun h => h
    | cons x xs ih => exact fun h => ih (h.mentionedByElement x)
  exact hfold _ ⟨List.nodup_nil, by simp⟩

/-! ## Places in the controller -/

/-- The register of an operand `(reg name)`, and where it stands. -/
def Form.registerSite? : Form → Option Site
  | .list _ [.ident _ tag, .ident span name] => if tag == utf8 "reg" then some ⟨name, span.start⟩ else none
  | _ => none

/-- The register that an instruction starts with, and where it stands. -/
def targetSite? : List Form → Option Site
  | .ident _ tag :: .ident span name :: _ => if hasTarget tag then some ⟨name, span.start⟩ else none
  | _ => none

/-- Where the instructions of a controller name a register, from left to right. -/
def registerSites (items : List Form) : List Site :=
  (Interpreter.elements items).flatMap fun e => (targetSite? e.2).toList ++ e.2.filterMap Form.registerSite?

namespace Interpreter

variable {labels : List (Bytes × Nat)} {x : Form} {xs : List Form}

theorem OperandShape.site {o : Operand} (h : OperandShape labels x o) :
    x.registerSite?.map Site.name = o.register? := by
  cases h with
  | @const _ _ x => cases x <;> rfl
  | label | reg => rfl

theorem OperandShape.mentioned {o : Operand} (h : OperandShape labels x o) (names : List Bytes) :
    mentioned names x = o.register?.toList.foldl note names := by
  cases h with
  | @const a b x =>
    have hreg : Form.tagged? (utf8 "reg") [.ident b (utf8 "const"), x] = none := rfl
    have hconst : Form.tagged? (utf8 "const") [.ident b (utf8 "const"), x] = some x := rfl
    rw [RegisterMachine.mentioned, hreg, hconst]
    rfl
  | label | reg => rfl

theorem operands_sites {os : List Operand} (h : List.Forall₂ (OperandShape labels) xs os) :
    (xs.filterMap Form.registerSite?).map Site.name = os.filterMap Operand.register? := by
  induction h with
  | nil => rfl
  | @cons x o xs os hx _ ih =>
    have hx := hx.site
    rw [List.filterMap_cons, List.filterMap_cons, ← hx, ← ih]
    cases x.registerSite? <;> rfl

theorem operands_mentioned {os : List Operand} (h : List.Forall₂ (OperandShape labels) xs os)
    (names : List Bytes) :
    mentionedIn names xs = (os.filterMap Operand.register?).foldl note names := by
  induction h generalizing names with
  | nil => rfl
  | @cons x o xs os hx _ ih =>
    rw [mentionedIn, hx.mentioned, ih, List.filterMap_cons]
    cases o.register? <;> rfl

theorem CallShape.sites {c : Call} (h : CallShape labels xs c) :
    (xs.filterMap Form.registerSite?).map Site.name = c.args.filterMap Operand.register? := by
  obtain ⟨h⟩ := h
  rw [← operands_sites h]
  rfl

theorem CallShape.mentioned {c : Call} (h : CallShape labels xs c) (names : List Bytes) :
    mentionedIn names xs = (c.args.filterMap Operand.register?).foldl note names := by
  obtain ⟨h⟩ := h
  rw [← operands_mentioned h]
  rfl

/-- The places of an instruction name the registers that the assembled instruction refers to. -/
theorem InstructionShape.sites {c : Code} (h : InstructionShape labels xs c) :
    ((targetSite? xs).toList ++ xs.filterMap Form.registerSite?).map Site.name = c.registers := by
  -- operations stand where a target would
  have hno {a : Span} {tag : Bytes} {xs : List Form} {call : Call} (h : CallShape labels xs call) :
      targetSite? (.ident a tag :: xs) = none := by
    obtain ⟨h⟩ := h
    rfl
  cases h with
  | @assign a b name x o h =>
    show name :: ([x].filterMap Form.registerSite?).map Site.name = name :: [o].filterMap Operand.register?
    rw [operands_sites (.cons h .nil)]
  | @compute a b name xs call h =>
    show name :: (xs.filterMap Form.registerSite?).map Site.name = name :: call.args.filterMap Operand.register?
    rw [h.sites]
  | test h =>
    rw [hno h]
    exact h.sites
  | perform h =>
    rw [hno h]
    exact h.sites
  | branch | goto | gotoReg | save | restore => rfl

theorem mentioned_of_tag {tag : Bytes} (hreg : tag ≠ utf8 "reg") (hconst : tag ≠ utf8 "const") (names : List Bytes)
    (a b : Span) (xs : List Form) : mentioned names (.list a (.ident b tag :: xs)) = mentionedIn names xs := by
  have hnone (t : Bytes) (ht : tag ≠ t) : Form.tagged? t (.ident b tag :: xs) = none := by
    match xs with
    | [] => rfl
    | [x] => exact if_neg (by simpa using ht)
    | _ :: _ :: _ => rfl
  rw [RegisterMachine.mentioned, hnone _ hreg, hnone _ hconst]
  rfl

/-- The walk notes, for an instruction, the registers that the assembled instruction refers to. -/
theorem InstructionShape.mentioned {c : Code} (h : InstructionShape labels xs c) (span : Span)
    (names : List Bytes) :
    mentionedByElement names (.list span xs) = c.registers.foldl note names := by
  cases h with
  | @assign a b name x o h =>
    show RegisterMachine.mentioned (note names name) (.list span [.ident a (utf8 "assign"), .ident b name, x]) = _
    rw [mentioned_of_tag (by decide) (by decide)]
    exact operands_mentioned (.cons h .nil) (note names name)
  | @compute a b name xs call h =>
    show RegisterMachine.mentioned (note names name)
        (.list span (.ident a (utf8 "assign") :: .ident b name :: xs)) = _
    rw [mentioned_of_tag (by decide) (by decide)]
    exact h.mentioned (note names name)
  | @test a xs call h =>
    refine Eq.trans ?_ (h.mentioned names)
    obtain ⟨h⟩ := h
    exact mentioned_of_tag (by decide) (by decide) names span a _
  | @perform a xs call h =>
    refine Eq.trans ?_ (h.mentioned names)
    obtain ⟨h⟩ := h
    exact mentioned_of_tag (by decide) (by decide) names span a _
  | branch | goto | gotoReg | save | restore => rfl

/-! ## Assembled controllers -/

variable {serial : Nat} {items : List Form} {p : Program}

theorem exists_list_of_mem_elements {e : Form × List Form} (h : e ∈ elements items) :
    ∃ span, e.1 = .list span e.2 := by
  obtain ⟨x, -, hx⟩ := List.mem_filterMap.mp h
  obtain ⟨parts, hparts, rfl⟩ := Option.map_eq_some_iff.mp hx
  cases x with
  | list span items =>
    cases hparts
    exact ⟨span, rfl⟩
  | ident | int | float | string | missing => cases hparts

/-- An instruction of a controller and the assembled one. -/
def Compiles (labels : List (Bytes × Nat)) (e : Form × List Form) (ins : Instruction) : Prop :=
  ∃ span c, e.1 = .list span e.2 ∧ ins.code = some c ∧ InstructionShape labels e.2 c

theorem Assembled.compiles (hp : Assembled serial items p) :
    List.Forall₂ (Compiles p.labels) (elements items) p.instructions.toList := by
  refine List.forall₂_iff_get.mpr ⟨?_, fun k h₁ h₂ => ?_⟩
  · rw [length_elements, ← hp.size_eq, Array.length_toList]
    rfl
  · have hins : p.instructions[k]? = some (p.instructions.toList.get ⟨k, h₂⟩) := by
      rw [← Array.getElem?_toList]
      exact List.getElem?_eq_getElem h₂
    obtain ⟨parts, c, hx, hc, hshape⟩ := hp.instruction hins
    have hget : (elements items).get ⟨k, h₁⟩ = (_, parts) :=
      Option.some.inj ((List.getElem?_eq_getElem h₁).symm.trans hx)
    obtain ⟨span, hlist⟩ := exists_list_of_mem_elements (List.get_mem (elements items) ⟨k, h₁⟩)
    refine ⟨span, c, hlist, hc, ?_⟩
    rw [hget]
    exact hshape

/-- **The places of a controller name the registers that its program refers to.** -/
theorem Assembled.sites (hp : Assembled serial items p) : (registerSites items).map Site.name = p.registers := by
  have h := hp.compiles
  unfold registerSites Program.registers
  generalize elements items = es at h ⊢
  generalize p.instructions.toList = is at h ⊢
  induction h with
  | nil => rfl
  | cons he _ ih =>
    obtain ⟨span, c, -, hc, hshape⟩ := he
    rw [List.flatMap_cons, List.flatMap_cons, List.map_append, ih, hshape.sites, hc]
    rfl

theorem foldl_mentioned (items : List Form) (names : List Bytes) :
    items.foldl mentionedByElement names =
      (elements items).foldl (fun names e => mentionedByElement names e.1) names := by
  induction items generalizing names with
  | nil => rfl
  | cons x items ih =>
    cases x with
    | list span parts =>
      rw [elements_cons_list, List.foldl_cons, List.foldl_cons]
      exact ih _
    | ident | int | float | string | missing => exact ih names

/-- **The walk finds the registers that the program refers to**, each where it comes first. -/
theorem Assembled.inferred (hp : Assembled serial items p) {controller : Form}
    (hc : controller.items? = some items) :
    inferRegisters controller = (p.registers.filter isAllocated).eraseDups := by
  have hfold : ∀ (es : List (Form × List Form)) (is : List Instruction), List.Forall₂ (Compiles p.labels) es is →
      ∀ names, es.foldl (fun names e => mentionedByElement names e.1) names =
        (is.flatMap fun ins => (ins.code.map Code.registers).getD []).foldl note names := by
    intro es is h
    induction h with
    | nil => exact fun _ => rfl
    | cons he _ ih =>
      intro names
      obtain ⟨span, c, hlist, hc, hshape⟩ := he
      rw [List.foldl_cons, ih, hlist, hshape.mentioned, List.flatMap_cons, List.foldl_append, hc]
      rfl
  rw [inferRegisters, hc, Option.getD_some, foldl_mentioned, hfold _ _ hp.compiles, ← foldl_note]
  rfl

theorem Assembled.mem_inferred (hp : Assembled serial items p) {controller : Form}
    (hc : controller.items? = some items)
    (r : Bytes) : r ∈ inferRegisters controller ↔ r ∈ p.registers ∧ r ≠ pcName ∧ r ≠ flagName := by
  rw [hp.inferred hc, List.mem_eraseDups, List.mem_filter]
  simp [isAllocated]

end Interpreter

/-! ## The order of the places -/

theorem Form.registerSite?_sublist {x : Form} {a : Site} (h : x.registerSite? = some a) : [a].Sublist x.sites := by
  unfold Form.registerSite? at h
  split at h
  · next t tag span name =>
    split at h
    · next ht =>
      obtain rfl := eq_of_beq ht
      cases h
      exact List.sublist_append_right [Site.mk (utf8 "reg") t.start] _
    · cases h
  · cases h

theorem registerSite?_sublist_sitesIn (xs : List Form) :
    (xs.filterMap Form.registerSite?).Sublist (Form.sitesIn xs) := by
  induction xs with
  | nil => exact .refl _
  | cons x xs ih =>
    rw [List.filterMap_cons]
    split
    · exact ih.trans (List.sublist_append_right _ _)
    · next a ha => exact (Form.registerSite?_sublist ha).append ih

theorem targetSite?_sublist (xs : List Form) :
    ((targetSite? xs).toList ++ xs.filterMap Form.registerSite?).Sublist (Form.sitesIn xs) := by
  unfold targetSite?
  split
  · next t tag span name rest =>
    split
    · exact (((registerSite?_sublist_sitesIn rest).cons_cons ⟨name, span.start⟩)).cons _
    · exact registerSite?_sublist_sitesIn _
  · exact registerSite?_sublist_sitesIn _

/-- What is among the names of the items, and of those behind a first name, is among the names of their list. -/
theorem Form.sublist_sites_list {l : List Site} {items : List Form} (span : Span) (h : l.Sublist (sitesIn items))
    (hquote : ∀ b x, items = [.ident b quoteWord, x] → l.Sublist x.sites) : l.Sublist (list span items).sites := by
  rw [sites]
  split
  · next hsome =>
    obtain ⟨x, hx⟩ := Option.isSome_iff_exists.mp hsome
    obtain ⟨b, rfl⟩ := Interpreter.tagged?_eq_some hx
    have := hquote b x rfl
    simpa [sitesIn, sites] using this
  · exact h

theorem elementSites_sublist (span : Span) (xs : List Form) :
    ((targetSite? xs).toList ++ xs.filterMap Form.registerSite?).Sublist (Form.list span xs).sites := by
  refine Form.sublist_sites_list span (targetSite?_sublist xs) ?_
  rintro b x rfl
  have hno : targetSite? [.ident b Form.quoteWord, x] = none := by cases x <;> rfl
  rw [hno]
  have hx := registerSite?_sublist_sitesIn [x]
  rw [Form.sitesIn, Form.sitesIn, List.append_nil] at hx
  exact hx

theorem registerSites_sublist_sitesIn (items : List Form) :
    (registerSites items).Sublist (Form.sitesIn items) := by
  induction items with
  | nil => exact .refl _
  | cons x items ih =>
    cases x with
    | list span parts => exact (elementSites_sublist span parts).append ih
    | ident span name => exact ih.trans (List.sublist_append_right _ _)
    | int | float | string | missing => exact ih

theorem registerSites_sublist {controller : Form} {items : List Form} (h : controller.items? = some items) :
    (registerSites items).Sublist controller.sites := by
  cases controller with
  | list span parts =>
    cases h
    refine Form.sublist_sites_list span (registerSites_sublist_sitesIn items) ?_
    rintro b x rfl
    have hx := registerSites_sublist_sitesIn [x]
    rw [Form.sitesIn, Form.sitesIn, List.append_nil] at hx
    exact hx
  | ident | int | float | string | missing => cases h

/-- **The registers of a controller are named in the order of its text.** -/
theorem placed_registerSites {file : SourceFile} {controller : Form} {items : List Form} {e : Option SyntaxError}
    (hread : Source.readOne [file] .form = (some controller, e)) (hitems : controller.items? = some items) :
    Placed file.text (registerSites items) := by
  have htext : Source.text [file] = file.text := List.append_nil _
  rw [← htext]
  exact (Source.placed_of_readOne (congrArg Prod.fst hread)).sublist (registerSites_sublist hitems)

/-! ## Allocation -/

theorem names_allocateAll {names : List Bytes} {s s' : State} (h : Machine.allocateAll s names = .ok s') :
    s'.names = s.names ++ names := by
  induction names generalizing s with
  | nil =>
    obtain rfl : s = s' := Except.ok.inj h
    exact (List.append_nil _).symm
  | cons name names ih =>
    rw [Machine.allocateAll] at h
    unfold State.allocate? at h
    split at h
    · next ht =>
      split at ht
      · cases ht
      · cases ht
        rw [ih h, State.names, State.names, List.map_append, List.append_assoc]
        rfl
    · cases h

theorem allocateAll_of_nodup {names : List Bytes} (hn : names.Nodup) {s : State}
    (h : ∀ name ∈ names, s.has name = false) : ∃ s', Machine.allocateAll s names = .ok s' := by
  induction names generalizing s with
  | nil => exact ⟨s, rfl⟩
  | cons name names ih =>
    obtain ⟨hname, hrest⟩ := List.forall_mem_cons.mp h
    obtain ⟨hnotin, hnodup⟩ := List.nodup_cons.mp hn
    have hnames : State.names { s with registers := s.registers ++ [(name, .nil)] } = s.names ++ [name] :=
      List.map_append
    have hfree : ∀ r ∈ names, State.has { s with registers := s.registers ++ [(name, .nil)] } r = false := by
      intro r hr
      have hne : r ≠ name := fun he => hnotin (he ▸ hr)
      have hold := hrest r hr
      rw [Bool.eq_false_iff, Ne, State.has_iff] at hold ⊢
      rw [hnames, List.mem_append, List.mem_singleton]
      tauto
    rw [Machine.allocateAll, State.allocate?_of_not_has hname]
    exact ih hnodup hfree

/-- **What the walk finds can be allocated.** -/
theorem allocateAll_inferRegisters (controller : Form) :
    ∃ s, Machine.allocateAll {} (inferRegisters controller) = .ok s ∧ s.names = inferRegisters controller := by
  obtain ⟨hnodup, halloc⟩ := fresh_inferRegisters controller
  have hfree : ∀ name ∈ inferRegisters controller, State.has {} name = false := by
    intro name hname
    have ha := halloc name hname
    rw [Bool.eq_false_iff, Ne, State.has_iff]
    simp only [isAllocated, Bool.and_eq_true, bne_iff_ne] at ha
    simp [ha, State.names]
  obtain ⟨s, hs⟩ := allocateAll_of_nodup hnodup hfree
  exact ⟨s, hs, names_allocateAll hs⟩

/-! ## Machines -/

namespace Machine

variable {serial : Nat} {items : List Form} {m m' : Machine}

/-- A step misses only a register that the program refers to. -/
theorem step_misses {e : RuntimeError} (h : m.step = (.failed e, m')) {z : Bytes}
    (hz : e.missingRegister? = some z) :
    z ∈ m.program.registers ∧ m.state.has z = false := by
  cases stepped_of_eq h with
  | lost => cases hz
  | @failed here ins t w _ hi hx =>
    obtain ⟨hmem, hno⟩ := (execute_tells hx).missing z hz
    exact ⟨List.mem_flatMap.mpr ⟨ins, Array.mem_toList_iff.mpr (Array.mem_of_getElem? hi), hmem⟩, hno⟩

theorem compile_ok {file : SourceFile} {registers : Option (List Bytes)} {host : Table} {console : Console}
    (h : Machine.compile serial file registers host console = .ok m) :
    ∃ controller, Source.readOne [file] .form = (some controller, none) ∧
      Machine.create serial (registers.getD (inferRegisters controller)) host console controller = .ok m := by
  unfold Machine.compile at h
  split at h
  · next x hx =>
    refine ⟨x, hx, ?_⟩
    split at h
    · next hc =>
      cases h
      exact hc
    · cases h
  · cases h
  · cases h

theorem names_of_create {registers : List Bytes} {host : Table} {console : Console} {controller : Form}
    (h : Machine.create serial registers host console controller = .ok m) : m.state.names = registers := by
  unfold Machine.create at h
  obtain ⟨s, hs, h⟩ := bind_eq_ok h
  obtain ⟨program, -, h⟩ := bind_eq_ok h
  obtain rfl := Except.ok.inj h
  exact names_allocateAll hs

/-- A machine that has all registers of its program never misses one. -/
theorem run_misses_nothing (hm : m.Acts (fun _ => True)) (hhas : ∀ r ∈ m.program.registers, m.state.has r = true)
    {rs : List Request} (hrs : ∀ r ∈ rs, r.Acts (fun _ => True) m.program.entry) {n : Nat} {e : RuntimeError}
    (h : ((m.serveAll rs).run n).1 = .failed e) : e.missingRegister? = none := by
  have hinit : m.Hosted (fun _ => True) m.program (fun s => ∀ r ∈ m.program.registers, s.has r = true) :=
    ⟨rfl, hm, hhas⟩
  obtain ⟨last, m', ⟨hprog, -, hlast⟩, hstep⟩ := hinit.run_failed
    (fun m' _ hm' hs r hr => State.has_mono (names_step hm' trivial).subset (hs r hr))
    (fun s t _ hs r hr => State.has_mono (t.names_apply _ s).subset (hs r hr)) hrs h
  cases hz : e.missingRegister? with
  | none => rfl
  | some z =>
    rw [← hprog] at hlast
    obtain ⟨hmem, hno⟩ := step_misses hstep hz
    rw [hlast z hmem] at hno
    cases hno

/-- The machine, read from a text, has the registers that its program uses. -/
structure HasUsedRegisters (file : SourceFile) (controller : Form) (items : List Form) (m : Machine) : Prop where
  /-- The registers of the machine are those that were found in the controller. -/
  allocated : m.state.names = inferRegisters controller
  nodup : (inferRegisters controller).Nodup
  /-- They are the registers that the instructions refer to, but for the two that always exist. -/
  used : ∀ r, r ∈ inferRegisters controller ↔ r ∈ m.program.registers ∧ r ≠ pcName ∧ r ≠ flagName
  /-- They come in the order in which the instructions first refer to them. -/
  first : inferRegisters controller = (m.program.registers.filter isAllocated).eraseDups
  /-- That is the order of the text, where the names of registers stand one behind the other. -/
  named : (registerSites items).map Site.name = m.program.registers
  placed : Placed file.text (registerSites items)

/-- **A machine gets the registers that its program uses, and never misses one.**  Let a machine be read from a
text without a list of registers.  Then it has the registers that its instructions refer to, in the order in which
the text first names them.  The registers found in any controller at all can be allocated.  And whatever the
operations of the host do, and whatever the host asks for, no run fails for want of a register. -/
theorem registers_inferred {file : SourceFile} {host : Table} {console : Console}
    (h : Machine.compile serial file none host console = .ok m)
    (hh : host.Acts (fun _ => True) m.program.entry) {rs : List Request}
    (hrs : ∀ r ∈ rs, r.Acts (fun _ => True) m.program.entry) :
    (∃ controller items, Source.readOne [file] .form = (some controller, none) ∧ controller.items? = some items ∧
      m.HasUsedRegisters file controller items) ∧
    (∀ x : Form, ∃ s, allocateAll {} (inferRegisters x) = .ok s) ∧
    ∀ n e, ((m.serveAll rs).run n).1 = .failed e → e.missingRegister? = none := by
  obtain ⟨controller, hread, hcreate⟩ := compile_ok h
  obtain ⟨items, hitems, hp⟩ := Interpreter.assembled_of_assemble (Interpreter.create_ok hcreate).1
  have hnames : m.state.names = inferRegisters controller := names_of_create hcreate
  refine ⟨⟨controller, items, hread, hitems, ?_⟩, fun x => ?_, fun n e hfail => ?_⟩
  · exact ⟨hnames, (fresh_inferRegisters controller).nodup, hp.mem_inferred hitems, hp.inferred hitems, hp.sites,
      placed_registerSites hread hitems⟩
  · obtain ⟨s, hs, -⟩ := allocateAll_inferRegisters x
    exact ⟨s, hs⟩
  · refine run_misses_nothing (acts_of_create hcreate hh) (fun r hr => ?_) hrs hfail
    rw [State.has_iff, hnames, hp.mem_inferred hitems]
    tauto

/-- Registers named like the words of operands, and one that is only data. -/
theorem registers_inferred_operand_words : ∃ file m rs,
    file = ⟨[], utf8 "((assign reg (op f) (const (reg y)) (reg const)) (save pc) (goto (reg reg)))"⟩ ∧
    rs = [.touch (.write (utf8 "const") (.view {})), .step] ∧
    Machine.compile 0 file none ⟨[(utf8 "f", Host.arguments)]⟩ {} = .ok m ∧
    m.state.names = [utf8 "reg", utf8 "const"] ∧
    (∃ controller items, Source.readOne [file] .form = (some controller, none) ∧ controller.items? = some items ∧
      m.HasUsedRegisters file controller items) ∧
    ∀ n e, ((m.serveAll rs).run n).1 = .failed e → e.missingRegister? = none := by
  refine ⟨_, ?machine, _, rfl, rfl, ?compiled, ?names, (registers_inferred ?compiled ?host ?requests).1,
    (registers_inferred ?compiled ?host ?requests).2.2⟩
  case compiled => rfl
  case names => rfl
  case host =>
    exact Table.acts_of_forall (List.forall_mem_singleton.mpr fun _ _ => ⟨[], by simp, rfl⟩)
  case requests => simp [Request.Acts]

end Machine

end RegisterMachine
