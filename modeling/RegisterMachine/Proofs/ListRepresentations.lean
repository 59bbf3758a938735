import RegisterMachine.Operation.Lists

/-!
# The two representations of lists

A constant list and a chain of pairs with the same elements cannot be told apart by printing or by taking them
apart, and neither can a chain of pairs that goes on as a constant list.

* `Meaning`, `Value.meaning`: the elements of a value and what stands behind them, for every representation.
* `Value.Alike`: two values denote the same.
* `Value.text_eq`: the printed form depends on the meaning only.
* `Value.uncons`: so does what `car` and `cdr` give.
* `Value.alike_indistinguishable`: alike values are printed, tested and taken apart alike.
-/

namespace RegisterMachine

/-- What a value denotes: elements, each as it denotes in turn, and what stands behind them where that is not the
end of a proper list.  An atom has no elements and stands behind them itself. -/
inductive Meaning where
  | mk (elements : List Meaning) (last : Option Value)

namespace Meaning

/-- The elements. -/
def elements : Meaning → List Meaning
  | mk elements _ => elements

/-- One more element in front. -/
def push (m : Meaning) : Meaning → Meaning
  | mk elements last => mk (m :: elements) last

theorem push_inj {m n : Meaning} {d e : Meaning} (h : push m d = push n e) : m = n ∧ d = e := by
  obtain ⟨ms, last⟩ := d
  obtain ⟨ns, last'⟩ := e
  obtain ⟨hcons, rfl⟩ := mk.inj h
  obtain ⟨rfl, rfl⟩ := List.cons.inj hcons
  exact ⟨rfl, rfl⟩

theorem elements_push (m d : Meaning) : (push m d).elements ≠ [] := by
  obtain ⟨ms, last⟩ := d
  exact List.cons_ne_nil m ms

end Meaning

namespace Value

mutual

/-- What a value denotes, in whichever way it is represented.  The reference to no pair is an atom here. -/
def meaning : Value → Meaning
  | nil => .mk [] none
  | list items => .mk (meanings items) none
  | pair _ a d => .push a.meaning d.meaning
  | v => .mk [] (some v)
termination_by structural v => v

/-- What the elements of a list denote. -/
def meanings : List Value → List Meaning
  | [] => []
  | v :: rest => v.meaning :: meanings rest
termination_by structural vs => vs

end

/-- Two values denote the same list or are the same atom. -/
def Alike (v w : Value) : Prop := v.meaning = w.meaning

end Value

/-! ## Printing -/

/-- The end of a printed list. -/
def endText : Option Value → Bytes
  | none | some .emptyPair => ")"
  | some v => concat [" . ", v.leafText, ")"]

/-- The printed form of elements with these texts and of what stands behind them. -/
def listText : List Bytes → Option Value → Bytes
  | [], none => "()"
  | [], some v => v.leafText
  | t :: ts, last => concat ["(", t, ts.flatMap (0x20 :: ·), endText last]

namespace Meaning

mutual

/-- The printed form of what is denoted. -/
def text : Meaning → Bytes
  | mk elements last => listText (texts elements) last
termination_by structural d => d

/-- The printed forms of elements. -/
def texts : List Meaning → List Bytes
  | [] => []
  | m :: rest => m.text :: texts rest
termination_by structural ms => ms

end

/-- The printed rest of a list, behind its first element. -/
def tailText : Meaning → Bytes
  | mk elements last => (texts elements).flatMap (0x20 :: ·) ++ endText last

theorem text_push (m d : Meaning) : (push m d).text = concat ["(", m.text, d.tailText] := by
  obtain ⟨ms, last⟩ := d
  simp [push, text, texts, listText, tailText, concat]

theorem tailText_push (m d : Meaning) : (push m d).tailText = concat [" ", m.text, d.tailText] := by
  obtain ⟨ms, last⟩ := d
  have hspace : utf8 " " = [0x20] := rfl
  simp [push, texts, tailText, concat, hspace]

end Meaning

theorem join_space (t : Bytes) (ts : List Bytes) : join [0x20] (t :: ts) = t ++ ts.flatMap (0x20 :: ·) := by
  induction ts generalizing t with
  | nil => simp [join]
  | cons s ts ih => simp [join, ih]

namespace Value

/-- A constant list is printed as its elements. -/
theorem text_list_eq (items : List Value) : (list items).text = listText (texts items) none := by
  rw [text]
  cases texts items with
  | nil => rfl
  | cons t ts =>
    show concat ["(", join [0x20] (t :: ts), ")"] = concat ["(", t, ts.flatMap (0x20 :: ·), ")"]
    rw [join_space]
    simp [concat]

mutual

/-- **The printed form depends on what is denoted only.** -/
theorem text_eq : ∀ v : Value, v.text = v.meaning.text
  | .list items => by
    rw [text_list_eq, texts_eq items, meaning, Meaning.text]
  | .pair _ a d => by
    rw [text, meaning, Meaning.text_push, text_eq a, tailText_eq d]
  | .nil | .bool _ | .int _ | .raw _ | .natural _ | .float _ | .string _ | .symbol _ | .emptyPair | .table _
  | .tables _ | .mapping _ | .view _ | .instant _ => rfl
termination_by structural v => v

theorem tailText_eq : ∀ v : Value, v.tailText = v.meaning.tailText
  | .list items => by
    rw [tailText, meaning, Meaning.tailText, texts_eq items]
    simp [concat, endText]
  | .pair _ a d => by
    rw [tailText, meaning, Meaning.tailText_push, text_eq a, tailText_eq d]
  | .nil | .bool _ | .int _ | .raw _ | .natural _ | .float _ | .string _ | .symbol _ | .emptyPair | .table _
  | .tables _ | .mapping _ | .view _ | .instant _ => rfl
termination_by structural v => v

theorem texts_eq : ∀ vs : List Value, texts vs = Meaning.texts (meanings vs)
  | [] => rfl
  | v :: vs => by rw [texts, meanings, Meaning.texts, text_eq v, texts_eq vs]
termination_by structural vs => vs

end

/-! ## Taking lists apart -/

/-- **A value has a first element and a rest, or none of the two**, and which it is depends on what it denotes. -/
theorem uncons (v : Value) :
    (∃ a d, v.meaning = .push a.meaning d.meaning ∧ Lists.car [v] = .ok a ∧ Lists.cdr [v] = .ok d ∧
      Lists.pair [v] = .ok (.bool true)) ∨
    (v.meaning.elements = [] ∧ Lists.car [v] = .error (.notPair "car" v) ∧
      Lists.cdr [v] = .error (.notPair "cdr" v) ∧ Lists.pair [v] = .ok (.bool false)) := by
  cases v with
  | pair cell a d => exact .inl ⟨a, d, rfl, rfl, rfl, rfl⟩
  | list items =>
    cases items with
    | nil => exact .inr ⟨rfl, rfl, rfl, rfl⟩
    | cons a rest => exact .inl ⟨a, .list rest, rfl, rfl, rfl, rfl⟩
  | _ => exact .inr ⟨rfl, rfl, rfl, rfl⟩

/-- Only the empty list denotes no elements and nothing behind them. -/
theorem isNull_iff (v : Value) : v.isNull = true ↔ v.meaning = .mk [] none := by
  cases v with
  | nil => exact iff_of_true rfl rfl
  | list items =>
    cases items with
    | nil => exact iff_of_true rfl rfl
    | cons a rest => exact iff_of_false (by simp [isNull]) (by simp [meaning, meanings])
  | pair cell a d =>
    refine iff_of_false (by simp [isNull]) fun h => ?_
    exact Meaning.elements_push _ _ (congrArg Meaning.elements h)
  | _ => exact iff_of_false (by simp [isNull]) (by simp [meaning])

/-- Two results of taking lists apart: both are values, and alike, or both say that there is no pair. -/
inductive Agree : Except Failure Value → Except Failure Value → Prop
  | ok {a b : Value} : a.Alike b → Agree (.ok a) (.ok b)
  | notPair {op : Bytes} {v w : Value} : Agree (.error (.notPair op v)) (.error (.notPair op w))

section Alike

variable {v w : Value}

theorem Alike.uncons (h : v.Alike w) :
    Lists.pair [v] = Lists.pair [w] ∧ Agree (Lists.car [v]) (Lists.car [w]) ∧
      Agree (Lists.cdr [v]) (Lists.cdr [w]) := by
  rcases v.uncons with ⟨a, d, hv, hcar, hcdr, hpair⟩ | ⟨hv, hcar, hcdr, hpair⟩
  · rcases w.uncons with ⟨b, e, hw, hcar', hcdr', hpair'⟩ | ⟨hw, -⟩
    · rw [Alike, hv, hw] at h
      obtain ⟨hab, hde⟩ := Meaning.push_inj h
      rw [hcar, hcdr, hpair, hcar', hcdr', hpair']
      exact ⟨rfl, .ok hab, .ok hde⟩
    · rw [Alike, hv] at h
      exact absurd (h ▸ hw) (Meaning.elements_push _ _)
  · rcases w.uncons with ⟨b, e, hw, -⟩ | ⟨-, hcar', hcdr', hpair'⟩
    · rw [Alike, hw] at h
      exact absurd (h ▸ hv) (Meaning.elements_push _ _)
    · rw [hcar, hcdr, hpair, hcar', hcdr', hpair']
      exact ⟨rfl, .notPair, .notPair⟩

theorem Alike.isNull (h : v.Alike w) : v.isNull = w.isNull := by
  rw [Bool.eq_iff_iff, isNull_iff, isNull_iff, show v.meaning = w.meaning from h]

theorem Alike.pair {a b : Value} (ha : a.Alike b) (h : v.Alike w) (i j : Nat) :
    (Value.pair i a v).Alike (Value.pair j b w) := by
  rw [Alike, meaning, meaning, show a.meaning = b.meaning from ha, show v.meaning = w.meaning from h]

end Alike

/-- A new list is alike to the constant list of its elements. -/
theorem alike_chain (cell : Nat) (vs : List Value) : (chain cell vs .nil).Alike (.list vs) := by
  induction vs with
  | nil => rfl
  | cons v vs ih => exact Alike.pair (v := chain cell vs .nil) rfl ih _ cell

/-- **The two representations of lists cannot be told apart.**  Alike values give the same answers to `pair?` and
`null?` and are printed as the same text; `car` and `cdr` give alike values of both or say of both that there is no
pair; and `cons` in front of them gives alike values again.  A new list of any values is alike to the constant list
of these values, and printed as it is. -/
theorem alike_indistinguishable :
    (∀ v w : Value, v.Alike w →
      Lists.pair [v] = Lists.pair [w] ∧ Lists.null [v] = Lists.null [w] ∧ v.text = w.text ∧
      Agree (Lists.car [v]) (Lists.car [w]) ∧ Agree (Lists.cdr [v]) (Lists.cdr [w]) ∧
      ∀ (a b : Value) (x y : World), a.Alike b → ∃ r s,
        (Lists.cons [a, v] x).1 = .value r ∧ (Lists.cons [b, w] y).1 = .value s ∧ r.Alike s) ∧
    ∀ (vs : List Value) (x : World), ∃ r,
      (Lists.list vs x).1 = .value r ∧ r.Alike (.list vs) ∧ r.text = (Value.list vs).text := by
  have htext : ∀ {v w : Value}, v.Alike w → v.text = w.text := fun h => by rw [text_eq, text_eq, h]
  refine ⟨fun v w h => ?_, fun vs x => ?_⟩
  · obtain ⟨hpair, hcar, hcdr⟩ := h.uncons
    have hnull : Lists.null [v] = Lists.null [w] := congrArg (fun b => Except.ok (Value.bool b)) h.isNull
    refine ⟨hpair, hnull, htext h, hcar, hcdr, fun a b x y hab => ?_⟩
    exact ⟨_, _, rfl, rfl, hab.pair h _ _⟩
  · have halike := alike_chain x.console.nextCell vs
    exact ⟨_, rfl, halike, htext halike⟩

/-- The constant list `(1 (a) ())`, and a pair in front of a constant list that holds a chain of pairs and the
other empty list. -/
theorem alike_indistinguishable_mixed :
    let a := Value.symbol "a"
    let v := Value.list [.int 1, .list [a], .nil]
    let w := Value.pair 3 (.int 1) (.list [.pair 5 a .nil, .list []])
    v.Alike w ∧ Lists.pair [v] = Lists.pair [w] ∧ Lists.null [v] = Lists.null [w] ∧ v.text = w.text ∧
      Agree (Lists.car [v]) (Lists.car [w]) ∧ Agree (Lists.cdr [v]) (Lists.cdr [w]) ∧
      ∃ r s, (Lists.cons [v, v] {}).1 = .value r ∧ (Lists.cons [w, w] {}).1 = .value s ∧ r.Alike s := by
  intro a v w
  have h : v.Alike w := rfl
  obtain ⟨hpair, hnull, htext, hcar, hcdr, hcons⟩ := alike_indistinguishable.1 v w h
  exact ⟨h, hpair, hnull, htext, hcar, hcdr, hcons v w {} {} h⟩

end Value

end RegisterMachine
