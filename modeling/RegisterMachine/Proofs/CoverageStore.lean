import Mathlib.Data.List.Induction
import Mathlib.Logic.Function.Basic
import RegisterMachine.Machine.Coverage

/-!
# Bitmaps in a store

Bitmaps are slices of arrays, and arrays are written in place.  Nothing in that forbids two bitmaps to share an
array.  It does not come to that, since a bitmap that is copied gets an array of its own.

* `Coverage.Edit`: a change of one of the numbered bitmaps, or a copy of one that takes the place of another.
  `Coverage.edited` are the bitmaps after some edits, as values.
* `Coverage.Heap`, `Coverage.Slice`: arrays by their addresses, and a beginning of one of them.
* `Coverage.Heap.append`, `Coverage.Heap.copy`, …: the edits of a slice.  A slice grows in place as long as its
  array has room, and how much room a new array has is left open (`spare`).
* `Coverage.Heap.Gives`: an edit gives a bitmap and writes to no array but that of one slice.
* `Coverage.Store.stored_separate`: whatever room new arrays have, no two slices share an array, and they show what
  the values are.
-/

namespace RegisterMachine.Coverage

/-! ## Edits of values -/

/-- A change of a bitmap. -/
inductive Change where
  | set (i : Nat)
  | reset
deriving DecidableEq

/-- An edit of numbered bitmaps.  To restore a copy is to copy it back. -/
inductive Edit where
  | change (k : Nat) (ch : Change)
  | copy (source k : Nat)

def Change.apply (c : Coverage) : Change → Coverage
  | .set i => c.set i
  | .reset => c.reset

/-- The number of the bitmap that an edit replaces. -/
def Edit.target : Edit → Nat
  | .change k _ => k
  | .copy _ k => k

/-- The bitmap that an edit puts there. -/
def Edit.made (cs : Nat → Coverage) : Edit → Coverage
  | .change k ch => ch.apply (cs k)
  | .copy source _ => (cs source).copy

/-- The bitmaps after some edits.  All of them are empty before. -/
def edited (es : List Edit) : Nat → Coverage :=
  es.foldl (fun cs e => Function.update cs e.target (e.made cs)) fun _ => {}

theorem edited_concat (es : List Edit) (e : Edit) :
    edited (es ++ [e]) = Function.update (edited es) e.target (e.made (edited es)) := by
  rw [edited, List.foldl_append]
  rfl

/-! ## Edits of slices -/

/-- The first `length` words of the array at an address. -/
structure Slice where
  base : Nat
  length : Nat

/-- The arrays that have been allocated, by their addresses. -/
structure Heap where
  arrays : Array (Array UInt64) := #[]

namespace Heap

/-- The array in which a slice lies. -/
def array (h : Heap) (s : Slice) : Array UInt64 := h.arrays[s.base]?.getD #[]

/-- The bitmap that a slice shows. -/
def shown (h : Heap) (b : Option Slice) : Coverage := ⟨b.map fun s => (h.array s).take s.length⟩

/-- Changes a word of a slice in place. -/
def overwrite (h : Heap) (b : Option Slice) (i : Nat) (f : UInt64 → UInt64) : Heap :=
  match b with
  | none => h
  | some s => ⟨h.arrays.modify s.base (·.modify i f)⟩

/-- Sets all words of a slice to zero, one after the other. -/
def reset (h : Heap) (b : Option Slice) : Heap × Option Slice :=
  ((List.range (h.shown b).words.size).foldl (fun h i => h.overwrite b i fun _ => 0) h, b)

section Growth

-- the room that a new array has behind its words, by their number
variable (spare : Nat → Nat)

/-- A slice of a new array that shows these words. -/
def allocate (h : Heap) (ws : Array UInt64) : Heap × Option Slice :=
  (⟨h.arrays.push (ws ++ Array.replicate (spare ws.size) 0)⟩, some ⟨h.arrays.size, ws.size⟩)

/-- A zero word behind a slice: in place if there is room, and otherwise in a new array. -/
def append (h : Heap) (b : Option Slice) : Heap × Option Slice :=
  match b with
  | none => h.allocate spare #[0]
  | some s =>
    if s.length < (h.array s).size then (h.overwrite b s.length fun _ => 0, some ⟨s.base, s.length + 1⟩)
    else h.allocate spare ((h.shown b).words.push 0)

/-- `n` zero words behind a slice, one after the other. -/
def grow (h : Heap) (b : Option Slice) : Nat → Heap × Option Slice
  | 0 => (h, b)
  | n + 1 => (h.append spare b).1.grow (h.append spare b).2 n

/-- Sets a bit; the slice grows up to its word. -/
def set (h : Heap) (b : Option Slice) (i : Nat) : Heap × Option Slice :=
  match h.grow spare b (i / 64 + 1 - (h.shown b).words.size) with
  | (h, b) => (h.overwrite b (i / 64) (· ||| mask (i % 64)), b)

/-- A slice of a new array that shows the same. -/
def copy (h : Heap) (b : Option Slice) : Heap × Option Slice := h.allocate spare (h.shown b).words

end Growth

end Heap

/-- A heap and the slices of the numbered bitmaps. -/
structure Store where
  heap : Heap := {}
  slices : Nat → Option Slice := fun _ => none

/-- The slice that an edit makes, with the heap in which it lies. -/
def Edit.performed (spare : Nat → Nat) (s : Store) : Edit → Heap × Option Slice
  | .change k (.set i) => s.heap.set spare (s.slices k) i
  | .change k .reset => s.heap.reset (s.slices k)
  | .copy source _ => s.heap.copy spare (s.slices source)

namespace Store

/-- The bitmaps of a store. -/
def bitmap (s : Store) (k : Nat) : Coverage := s.heap.shown (s.slices k)

/-- The store after an edit. -/
def edit (spare : Nat → Nat) (s : Store) (e : Edit) : Store :=
  ⟨(e.performed spare s).1, Function.update s.slices e.target (e.performed spare s).2⟩

/-- The store after some edits; there are no arrays before. -/
def stored (spare : Nat → Nat) (es : List Edit) : Store := es.foldl (edit spare) {}

end Store

/-! ## What an edit leaves alone -/

/-- The slices lie in different arrays. -/
def Slice.Apart (b c : Option Slice) : Prop := ∀ s ∈ b, ∀ t ∈ c, s.base ≠ t.base

open Slice (Apart)

namespace Heap

variable {h : Heap} {b c : Option Slice} {spare : Nat → Nat}

/-- The slice lies in an array of the heap. -/
def Fits (h : Heap) (b : Option Slice) : Prop := ∀ s ∈ b, s.base < h.arrays.size ∧ s.length ≤ (h.array s).size

/-- The edit of the slice `b` gives a slice that shows the bitmap `v`.  Slices that lie in other arrays than `b`
still show what they showed, and lie in other arrays than the given slice. -/
structure Gives (h : Heap) (b : Option Slice) (r : Heap × Option Slice) (v : Coverage) : Prop where
  shown : r.1.shown r.2 = v
  fits : r.1.Fits r.2
  others : ∀ c, h.Fits c → Apart c b → r.1.Fits c ∧ r.1.shown c = h.shown c ∧ Apart c r.2

theorem Gives.refl (hb : h.Fits b) : h.Gives b (h, b) (h.shown b) :=
  ⟨rfl, hb, fun _ hc ha => ⟨hc, rfl, ha⟩⟩

/-- One edit after the other. -/
theorem Gives.trans {r r' : Heap × Option Slice} {v v' : Coverage} (hr : h.Gives b r v)
    (hr' : r.1.Gives r.2 r' v') :
    h.Gives b r' v' := by
  refine ⟨hr'.shown, hr'.fits, fun c hc ha => ?_⟩
  obtain ⟨hfits, hshown, hapart⟩ := hr.others c hc ha
  obtain ⟨hfits', hshown', hapart'⟩ := hr'.others c hfits hapart
  exact ⟨hfits', hshown'.trans hshown, hapart'⟩

theorem shown_congr {h' : Heap} (ha : ∀ s ∈ c, h'.array s = h.array s) : h'.shown c = h.shown c := by
  cases c with
  | none => rfl
  | some s =>
    show Coverage.mk (some ((h'.array s).take s.length)) = _
    rw [ha s rfl]
    rfl

theorem Fits.congr {h' : Heap} (hc : h.Fits c) (hsize : h.arrays.size ≤ h'.arrays.size)
    (ha : ∀ s ∈ c, h'.array s = h.array s) : h'.Fits c := by
  intro s hs
  rw [ha s hs]
  exact ⟨Nat.lt_of_lt_of_le (hc s hs).1 hsize, (hc s hs).2⟩

/-- A new array is not the array of any slice. -/
theorem gives_allocate (b : Option Slice) (ws : Array UInt64) : h.Gives b (h.allocate spare ws) ⟨some ws⟩ := by
  have hnew : (h.allocate spare ws).1.array ⟨h.arrays.size, ws.size⟩ =
      ws ++ Array.replicate (spare ws.size) 0 := by
    simp [allocate, array]
  refine ⟨?_, ?_, fun c hc _ => ?_⟩
  · show Coverage.mk (some (((h.allocate spare ws).1.array ⟨h.arrays.size, ws.size⟩).take ws.size)) = _
    rw [hnew]
    simp
  · rintro s ⟨⟩
    rw [hnew]
    simp [allocate]
  · have hold : ∀ s ∈ c, (h.allocate spare ws).1.array s = h.array s := fun s hs => by
      simp [allocate, array, Array.getElem?_push, Nat.ne_of_lt (hc s hs).1]
    refine ⟨hc.congr (by simp [allocate]) hold, shown_congr hold, ?_⟩
    rintro s hs t ⟨⟩
    exact Nat.ne_of_lt (hc s hs).1

/-- A word that is changed in place is a word of no other array. -/
theorem array_overwrite_of_apart (ha : Apart c b) (i : Nat) (f : UInt64 → UInt64) :
    ∀ s ∈ c, (h.overwrite b i f).array s = h.array s := by
  intro s hs
  cases b with
  | none => rfl
  | some t =>
    have hne : t.base ≠ s.base := (ha s hs t rfl).symm
    simp [overwrite, array, Array.getElem?_modify, hne]

theorem array_overwrite (s : Slice) (i : Nat) (f : UInt64 → UInt64) :
    (h.overwrite (some s) i f).array s = (h.array s).modify i f := by
  simp only [overwrite, array, Array.getElem?_modify, if_true]
  cases h.arrays[s.base]? with
  | none => simp
  | some a => rfl

theorem size_overwrite (i : Nat) (f : UInt64 → UInt64) : (h.overwrite b i f).arrays.size = h.arrays.size := by
  cases b with
  | none => rfl
  | some s => simp [overwrite]

theorem take_modify (ws : Array UInt64) (n i : Nat) (f : UInt64 → UInt64) :
    (ws.modify i f).take n = (ws.take n).modify i f := by
  apply Array.ext
  · simp
  · intro j h₁ h₂
    simp [Array.getElem_modify]

/-- The word behind a beginning of an array, once it has been set. -/
theorem take_succ_modify {ws : Array UInt64} {n : Nat} (hn : n < ws.size) :
    (ws.modify n fun _ => 0).take (n + 1) = (ws.take n).push 0 := by
  apply Array.ext
  · simp
    omega
  · intro j h₁ h₂
    have hmin : min n ws.size = n := Nat.min_eq_left (Nat.le_of_lt hn)
    have hj : j < n ∨ j = n := by
      simp only [Array.take_eq_extract, Array.size_push, Array.size_extract] at h₂
      omega
    rcases hj with hj | rfl
    · simp [Array.getElem_modify, Array.getElem_push, hmin, hj, Nat.ne_of_gt hj]
    · simp [Array.getElem_modify, Array.getElem_push, hmin]

theorem gives_overwrite (hb : h.Fits b) (i : Nat) (f : UInt64 → UInt64) :
    h.Gives b (h.overwrite b i f, b) ⟨(h.shown b).bitmap.map (·.modify i f)⟩ := by
  refine ⟨?_, ?_, fun c hc ha => ?_⟩
  · cases b with
    | none => rfl
    | some s =>
      show Coverage.mk (some (((h.overwrite (some s) i f).array s).take s.length)) = _
      rw [array_overwrite, take_modify]
      rfl
  · rintro s ⟨⟩
    show s.base < (h.overwrite (some s) i f).arrays.size ∧ _
    rw [size_overwrite, array_overwrite, Array.size_modify]
    exact hb s rfl
  · have hold := array_overwrite_of_apart (h := h) ha i f
    exact ⟨hc.congr (Nat.le_of_eq (size_overwrite i f).symm) hold, shown_congr hold, ha⟩

/-- A word more, in place or in a new array. -/
theorem gives_append (spare : Nat → Nat) (hb : h.Fits b) :
    h.Gives b (h.append spare b) ⟨some ((h.shown b).words.push 0)⟩ := by
  cases b with
  | none => exact gives_allocate none #[0]
  | some s =>
    rw [append]
    split
    · next hroom =>
      have harray := array_overwrite (h := h) s s.length fun _ => 0
      refine ⟨?_, ?_, fun c hc ha => ?_⟩
      · show Coverage.mk (some (((h.overwrite (some s) s.length fun _ => 0).array s).take (s.length + 1))) =
          ⟨some (((h.array s).take s.length).push 0)⟩
        rw [harray, take_succ_modify hroom]
      · rintro t ⟨⟩
        show s.base < (h.overwrite (some s) s.length fun _ => 0).arrays.size ∧
          s.length + 1 ≤ ((h.overwrite (some s) s.length fun _ => 0).array s).size
        rw [size_overwrite, harray, Array.size_modify]
        exact ⟨(hb s rfl).1, hroom⟩
      · obtain ⟨hfits, hshown, -⟩ := (gives_overwrite hb s.length fun _ => 0).others c hc ha
        refine ⟨hfits, hshown, ?_⟩
        rintro u hu t ⟨⟩
        exact ha u hu s rfl
    · exact gives_allocate (some s) _

/-- A bitmap with `n` zero words more, one after the other. -/
def grown (v : Coverage) : Nat → Coverage
  | 0 => v
  | n + 1 => grown ⟨some (v.words.push 0)⟩ n

theorem gives_grow (spare : Nat → Nat) (hb : h.Fits b) (n : Nat) :
    h.Gives b (h.grow spare b n) (grown (h.shown b) n) := by
  induction n generalizing h b with
  | zero => exact .refl hb
  | succ n ih =>
    have happend := gives_append spare hb
    have hgrow := ih happend.fits
    rw [happend.shown] at hgrow
    exact happend.trans hgrow

theorem grown_some (ws : Array UInt64) (n : Nat) : grown ⟨some ws⟩ n = ⟨some (ws ++ Array.replicate n 0)⟩ := by
  induction n generalizing ws with
  | zero => simp [grown]
  | succ n ih =>
    show grown ⟨some (ws.push 0)⟩ n = _
    rw [ih, Array.push_eq_append, Array.append_assoc, Array.replicate_succ']

theorem gives_set (hb : h.Fits b) (i : Nat) : h.Gives b (h.set spare b i) ((h.shown b).set i) := by
  generalize hn : i / 64 + 1 - (h.shown b).words.size = n
  have hgrow := gives_grow spare hb n
  have hmark := gives_overwrite hgrow.fits (i / 64) (· ||| mask (i % 64))
  have hset : h.set spare b i =
      ((h.grow spare b n).1.overwrite (h.grow spare b n).2 (i / 64) (· ||| mask (i % 64)),
      (h.grow spare b n).2) := by
    rw [← hn]
    rfl
  rw [hset]
  have hgrown : grown (h.shown b) n = ⟨some (Coverage.grow (h.shown b).words (i / 64 + 1))⟩ := by
    rw [Coverage.grow, hn]
    cases b with
    | some s => exact grown_some _ n
    | none =>
      -- there is no slice yet, so there is at least one word to add
      obtain ⟨k, rfl⟩ : ∃ k, n = k + 1 := ⟨i / 64, hn.symm⟩
      show grown ⟨some #[0]⟩ k = ⟨some (#[] ++ Array.replicate (k + 1) 0)⟩
      rw [grown_some, Array.empty_append, Array.replicate_succ']
  rw [hgrow.shown, hgrown] at hmark
  exact hgrow.trans hmark

/-- Words that are changed in place one after the other. -/
theorem gives_overwrites (hb : h.Fits b) (f : UInt64 → UInt64) (is : List Nat) :
    h.Gives b (is.foldl (fun h i => h.overwrite b i f) h, b)
      ⟨(h.shown b).bitmap.map fun ws => is.foldl (fun ws i => ws.modify i f) ws⟩ := by
  induction is generalizing h with
  | nil =>
    have hrefl := Gives.refl hb
    simpa using hrefl
  | cons i is ih =>
    have hfirst := gives_overwrite hb i f
    have hrest := ih hfirst.fits
    rw [hfirst.shown, Option.map_map] at hrest
    exact hfirst.trans hrest

theorem getElem?_zeroed (is : List Nat) (ws : Array UInt64) (j : Nat) :
    (is.foldl (fun ws i => ws.modify i fun _ => 0) ws)[j]? = ws[j]?.map fun w => if j ∈ is then 0 else w := by
  induction is generalizing ws with
  | nil => simp
  | cons i is ih =>
    rw [List.foldl_cons, ih, Array.getElem?_modify]
    by_cases hij : i = j
    · simp [hij, Function.comp_def]
    · simp [hij, Ne.symm hij]

theorem zeroed_range (ws : Array UInt64) :
    (List.range ws.size).foldl (fun ws i => ws.modify i fun _ => 0) ws = ws.map fun _ => 0 := by
  refine Array.ext_getElem? fun j => ?_
  rw [getElem?_zeroed, Array.getElem?_map]
  cases hj : ws[j]? with
  | none => rfl
  | some w =>
    obtain ⟨hlt, -⟩ := Array.getElem?_eq_some_iff.mp hj
    simp [hlt]

theorem gives_reset (hb : h.Fits b) : h.Gives b (h.reset b) (h.shown b).reset := by
  have hzeroed := gives_overwrites hb (fun _ => 0) (List.range (h.shown b).words.size)
  have hreset : (h.shown b).bitmap.map (fun ws => (List.range (h.shown b).words.size).foldl
      (fun ws i => ws.modify i fun _ => 0) ws) = (h.shown b).bitmap.map fun ws => ws.map fun _ => 0 := by
    cases b with
    | none => rfl
    | some s => exact congrArg some (zeroed_range _)
  rw [hreset] at hzeroed
  exact hzeroed

theorem gives_copy (c b : Option Slice) : h.Gives c (h.copy spare b) (h.shown b).copy := gives_allocate c _

end Heap

/-! ## Stores -/

namespace Store

variable {s : Store} (spare : Nat → Nat)

/-- Every bitmap has an array of its own. -/
structure Separate (s : Store) : Prop where
  fits : ∀ k, s.heap.Fits (s.slices k)
  apart : ∀ k k', k ≠ k' → Apart (s.slices k) (s.slices k')

/-- The slice whose array an edit may write to.  A copy writes to none. -/
def owned (s : Store) : Edit → Option Slice
  | .change k _ => s.slices k
  | .copy .. => none

theorem apart_owned (hs : s.Separate) {e : Edit} {k : Nat} (hk : k ≠ e.target) :
    Apart (s.slices k) (s.owned e) := by
  cases e with
  | change j ch => exact hs.apart k j hk
  | copy source j => exact fun _ _ _ ht => by cases ht

/-- An edit of slices gives the bitmap that the edit of values gives. -/
theorem gives_performed (hs : s.Separate) (e : Edit) :
    s.heap.Gives (s.owned e) (e.performed spare s) (e.made s.bitmap) := by
  cases e with
  | change k ch =>
    cases ch with
    | set i => exact Heap.gives_set (hs.fits k) i
    | reset => exact Heap.gives_reset (hs.fits k)
  | copy source k => exact Heap.gives_copy none (s.slices source)

/-- **An edit keeps the bitmaps apart and changes only its own.** -/
theorem edit_separate (hs : s.Separate) (e : Edit) : (s.edit spare e).Separate ∧
    (s.edit spare e).bitmap = Function.update s.bitmap e.target (e.made s.bitmap) := by
  have hgives := gives_performed spare hs e
  have hself : (s.edit spare e).slices e.target = (e.performed spare s).2 := Function.update_self ..
  have hother : ∀ k, k ≠ e.target → (s.edit spare e).slices k = s.slices k :=
    fun k hk => Function.update_of_ne hk ..
  have hothers := fun k hk => hgives.others (s.slices k) (hs.fits k) (apart_owned hs hk)
  refine ⟨⟨fun k => ?_, fun k k' hne => ?_⟩, funext fun k => ?_⟩
  · by_cases hk : k = e.target
    · rw [hk, hself]
      exact hgives.fits
    · rw [hother k hk]
      exact (hothers k hk).1
  · by_cases hk : k = e.target
    · have hk' : k' ≠ e.target := fun heq => hne (hk.trans heq.symm)
      rw [hk, hself, hother k' hk']
      exact fun a ha t ht heq => (hothers k' hk').2.2 t ht a ha heq.symm
    · by_cases hk' : k' = e.target
      · rw [hk', hself, hother k hk]
        exact (hothers k hk).2.2
      · rw [hother k hk, hother k' hk']
        exact hs.apart k k' hne
  · by_cases hk : k = e.target
    · rw [hk, Function.update_self, bitmap, hself]
      exact hgives.shown
    · rw [Function.update_of_ne hk, bitmap, hother k hk]
      exact (hothers k hk).2.1

/-- After any edits every bitmap has an array of its own and shows what its value is. -/
theorem stored_separate (es : List Edit) :
    (stored spare es).Separate ∧ (stored spare es).bitmap = edited es := by
  induction es using List.reverseRecOn with
  | nil =>
    refine ⟨⟨fun k => ?_, fun k k' _ => ?_⟩, rfl⟩
    · rintro _ ⟨⟩
    · rintro _ ⟨⟩
  | append_singleton es e ih =>
    obtain ⟨hseparate, hbitmap⟩ := ih
    have hedit := edit_separate spare hseparate e
    rw [hbitmap, ← edited_concat] at hedit
    have hconcat : stored spare (es ++ [e]) = (stored spare es).edit spare e := by
      rw [stored, List.foldl_append]
      rfl
    rw [hconcat]
    exact hedit

end Store

end RegisterMachine.Coverage
