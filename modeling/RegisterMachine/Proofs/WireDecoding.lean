import Mathlib.Algebra.Order.Ring.Nat
import RegisterMachine.Machine.State
import RegisterMachine.Proofs.CoverageSet

/-!
# Decoding the wire form

The encoded members of a bitmap and the encoded counters can be read back, whatever bytes follow them.

* `Wire.Item`: what an encoded item stands for; `Wire.Item.encode` is its encoding.
* `Wire.decode`: reads one item from the front of a byte string and gives the bytes behind it.  The end of an
  unbounded array is found item by item: the byte that closes it may well occur inside of the items.
* `Wire.exists_tagged`: the first byte of an item tells where its number is.
* `Wire.Item.decode_encode`: an encoded item is read back, if its numbers fit into eight bytes.
* `Coverage.wire_eq`, `Stats.wire_eq`: what is written are encoded items.
* `wire_decodes_uniquely`: the members of a bitmap and the counters are read back, and hence told apart.
-/

namespace RegisterMachine

namespace Wire

/-- What a number must stay below to fit into eight bytes. -/
def limit : Nat := 0x10000000000000000

/-- What an encoded item stands for. -/
inductive Item where
  | number (n : Nat)
  | string (s : Bytes)
  | list (items : List Item)
  | map (entries : List (Item × Item))
  | nothing

namespace Item

mutual

def encode : Item → Bytes
  | number n => Wire.number n
  | string s => Wire.string s
  | list items => openArray ++ encodeAll items ++ closeArray
  | map entries => mapOf entries.length ++ encodeEntries entries
  | nothing => Wire.nothing
termination_by structural x => x

def encodeAll : List Item → Bytes
  | [] => []
  | x :: xs => x.encode ++ encodeAll xs
termination_by structural xs => xs

def encodeEntries : List (Item × Item) → Bytes
  | [] => []
  | (k, x) :: es => k.encode ++ x.encode ++ encodeEntries es
termination_by structural es => es

end

mutual

/-- The numbers and lengths in an item can be encoded. -/
def Fits : Item → Prop
  | number n => n < limit
  | string s => s.length < limit
  | list items => AllFit items
  | map entries => entries.length < limit ∧ EntriesFit entries
  | nothing => True
termination_by structural x => x

def AllFit : List Item → Prop
  | [] => True
  | x :: xs => x.Fits ∧ AllFit xs
termination_by structural xs => xs

def EntriesFit : List (Item × Item) → Prop
  | [] => True
  | (k, x) :: es => k.Fits ∧ x.Fits ∧ EntriesFit es
termination_by structural es => es

end

end Item

/-! ## Decoders -/

/-- The number with the given bytes, most significant first. -/
def ofBigEndian (b : Bytes) : Nat := b.foldl (fun n x => n * 256 + x.toNat) 0

/-- Takes `n` bytes. -/
def chunk (n : Nat) (b : Bytes) : Option (Bytes × Bytes) :=
  if n ≤ b.length then some (b.take n, b.drop n) else none

/-- In how many bytes the number follows, by the lower five bits of the first byte. -/
def width? : Nat → Option Nat
  | 24 => some 1
  | 25 => some 2
  | 26 => some 4
  | 27 => some 8
  | _ => none

/-- The number that belongs to a first byte with the given lower five bits. -/
def argument (low : Nat) (b : Bytes) : Option (Nat × Bytes) :=
  if low < 24 then some (low, b)
  else (width? low).bind fun width => (chunk width b).map (Prod.map ofBigEndian id)

section Loops

variable {α : Type} (decode : Bytes → Option (α × Bytes))

/-- Decodes up to the byte that closes an array. -/
def untilClosed : Bytes → Option (List α × Bytes)
  | [] => none
  | x :: b =>
    if x = 0xFF then some ([], b)
    else
      match decode (x :: b) with
      | none => none
      | some (y, rest) =>
        if rest.length < b.length + 1 then (untilClosed rest).map (Prod.map (y :: ·) id) else none
termination_by b => b.length

/-- Decodes `n` times. -/
def times : Nat → Bytes → Option (List α × Bytes)
  | 0, b => some ([], b)
  | n + 1, b => (decode b).bind fun (y, rest) => (times n rest).map (Prod.map (y :: ·) id)

/-- Decodes a key and what belongs to it. -/
def entry (b : Bytes) : Option ((α × α) × Bytes) :=
  (decode b).bind fun (k, rest) => (decode rest).map (Prod.map (k, ·) id)

end Loops

/-- Decodes what belongs to a first byte with the upper three bits `major` and the number `n`. -/
def content (decode : Bytes → Option (Item × Bytes)) : Nat → Nat → Bytes → Option (Item × Bytes)
  | 0, n, b => some (.number n, b)
  | 3, n, b => (chunk n b).map (Prod.map .string id)
  | 5, n, b => (times (entry decode) n b).map (Prod.map .map id)
  | _, _, _ => none

/-- Decodes an item that nests less than `depth` deep. -/
def decodeIn : Nat → Bytes → Option (Item × Bytes)
  | 0, _ => none
  | _, [] => none
  | depth + 1, x :: b =>
    if x = 0x9F then (untilClosed (decodeIn depth) b).map (Prod.map .list id)
    else if x = 0xF6 then some (.nothing, b)
    else (argument (x.toNat % 32) b).bind fun (n, rest) => content (decodeIn depth) (x.toNat / 32) n rest

/-- Decodes the item at the front of a byte string.  Nothing nests deeper than there are bytes. -/
def decode (b : Bytes) : Option (Item × Bytes) := decodeIn b.length b

/-! ## Numbers -/

theorem chunk_append (b rest : Bytes) : chunk b.length (b ++ rest) = some (b, rest) := by
  have hle : b.length ≤ (b ++ rest).length := by simp
  rw [chunk, if_pos hle, List.take_left, List.drop_left]

theorem length_bigEndian (width n : Nat) : (bigEndian width n).length = width := by
  induction width generalizing n with
  | zero => rfl
  | succ width ih => rw [bigEndian, List.length_append, ih, List.length_singleton]

theorem ofBigEndian_concat (b : Bytes) (x : UInt8) : ofBigEndian (b ++ [x]) = ofBigEndian b * 256 + x.toNat := by
  rw [ofBigEndian, List.foldl_append]
  rfl

theorem ofBigEndian_bigEndian {width n : Nat} (h : n < 256 ^ width) : ofBigEndian (bigEndian width n) = n := by
  induction width generalizing n with
  | zero =>
    have hzero : n = 0 := by simpa using h
    rw [hzero]
    rfl
  | succ width ih =>
    have hdiv : n / 256 < 256 ^ width := by
      rw [pow_succ] at h
      omega
    have hlast : (n % 256).toUInt8.toNat = n % 256 := by simp
    rw [bigEndian, ofBigEndian_concat, ih hdiv, hlast]
    omega

theorem argument_bigEndian {low width n : Nat} (hlow : ¬ low < 24) (hwidth : width? low = some width)
    (hn : n < 256 ^ width) (rest : Bytes) : argument low (bigEndian width n ++ rest) = some (n, rest) := by
  have hchunk := chunk_append (bigEndian width n) rest
  rw [length_bigEndian] at hchunk
  rw [argument, if_neg hlow, hwidth, Option.bind_some, hchunk, Option.map_some, Prod.map_apply,
    ofBigEndian_bigEndian hn, id]

section Tagged

variable {tag : UInt8} {major : Nat} (htag : tag.toNat = 32 * major) (hmajor : major < 8)

include htag hmajor

theorem toNat_tag_add (low : Nat) (hlow : low < 32) : (tag + low.toUInt8).toNat = 32 * major + low := by
  have hbyte : low.toUInt8.toNat = low := by
    simp
    omega
  rw [UInt8.toNat_add, htag, hbyte]
  omega

/-- A tag with a number starts with a byte that tells the tag and where the number is. -/
theorem exists_tagged {n : Nat} (hn : n < limit) :
    ∃ x digits, tagged tag n = x :: digits ∧ x.toNat / 32 = major ∧ x.toNat % 32 < 28 ∧
      ∀ rest, argument (x.toNat % 32) (digits ++ rest) = some (n, rest) := by
  -- in each of the four wider classes the byte tells the width
  have hwide : ∀ low width, low < 28 → ¬ low < 24 → width? low = some width → n < 256 ^ width →
      ∃ x digits, (tag + low.toUInt8) :: bigEndian width n = x :: digits ∧ x.toNat / 32 = major ∧
        x.toNat % 32 < 28 ∧ ∀ rest, argument (x.toNat % 32) (digits ++ rest) = some (n, rest) := by
    intro low width hlt hlow hwidth hn
    have hx := toNat_tag_add htag hmajor low (by omega)
    have hmod : (tag + low.toUInt8).toNat % 32 = low := by omega
    refine ⟨_, _, rfl, by omega, by omega, fun rest => ?_⟩
    rw [hmod]
    exact argument_bigEndian hlow hwidth hn rest
  unfold tagged
  split_ifs with h24 h8 h16 h32
  · have hx := toNat_tag_add htag hmajor n (by omega)
    have hmod : (tag + n.toUInt8).toNat % 32 = n := by omega
    refine ⟨_, _, rfl, by omega, by omega, fun rest => ?_⟩
    rw [hmod, argument, if_pos h24]
    rfl
  · exact hwide 24 1 (by omega) (by omega) rfl h8
  · exact hwide 25 2 (by omega) (by omega) rfl h16
  · exact hwide 26 4 (by omega) (by omega) rfl h32
  · exact hwide 27 8 (by omega) (by omega) rfl hn

end Tagged

/-! ## Items -/

theorem untilClosed_cons {α : Type} {decode : Bytes → Option (α × Bytes)} {x : UInt8} {b rest : Bytes} {y : α}
    (hx : x ≠ 0xFF) (hdecode : decode (x :: (b ++ rest)) = some (y, rest)) :
    untilClosed decode (x :: (b ++ rest)) = (untilClosed decode rest).map (Prod.map (y :: ·) id) := by
  have hshorter : rest.length < (b ++ rest).length + 1 := by
    rw [List.length_append]
    omega
  rw [untilClosed, if_neg hx, hdecode]
  dsimp only
  rw [if_pos hshorter]

theorem decodeIn_tagged {tag : UInt8} (major : Nat) {n : Nat} (htag : tag.toNat = 32 * major) (hmajor : major < 7)
    (hn : n < limit) (depth : Nat) (rest : Bytes) :
    decodeIn (depth + 1) (tagged tag n ++ rest) = content (decodeIn depth) major n rest := by
  obtain ⟨x, digits, htagged, hdiv, hmod, hargument⟩ := exists_tagged htag (by omega) hn
  -- the lower bits of the first exception are 31, the upper bits of the second one are 7
  have hopen : x ≠ 0x9F := by
    rintro rfl
    exact absurd hmod (by decide)
  have hnothing : x ≠ 0xF6 := by
    rintro rfl
    exact absurd hdiv (by show ¬ 7 = major; omega)
  rw [htagged, List.cons_append, decodeIn, if_neg hopen, if_neg hnothing, hargument, Option.bind_some]
  dsimp only
  rw [hdiv]

namespace Item

/-- An encoded item is not empty and does not start with the byte that closes an array. -/
theorem encode_eq_cons {x : Item} (h : x.Fits) : ∃ y b, x.encode = y :: b ∧ y ≠ 0xFF := by
  have htagged : ∀ (tag : UInt8) (major n : Nat), tag.toNat = 32 * major → major < 7 → n < limit → ∀ rest,
      ∃ y b, tagged tag n ++ rest = y :: b ∧ y ≠ 0xFF := by
    intro tag major n htag hmajor hn rest
    obtain ⟨y, digits, heq, -, hmod, -⟩ := exists_tagged htag (by omega) hn
    refine ⟨y, digits ++ rest, by rw [heq, List.cons_append], ?_⟩
    rintro rfl
    exact absurd hmod (by decide)
  cases x with
  | number n =>
    rw [encode, Wire.number, ← List.append_nil (tagged _ n)]
    exact htagged 0x00 0 n rfl (by omega) h []
  | string s => exact htagged 0x60 3 s.length rfl (by omega) h s
  | list items => exact ⟨0x9F, _, rfl, by decide⟩
  | map entries => exact htagged 0xA0 5 entries.length rfl (by omega) h.1 _
  | nothing => exact ⟨0xF6, _, rfl, by decide⟩

mutual

/-- An encoded item is read back, with as much depth as it has bytes. -/
theorem decodeIn_encode : ∀ x : Item, x.Fits → ∀ depth, x.encode.length ≤ depth → ∀ rest,
    decodeIn depth (x.encode ++ rest) = some (x, rest)
  | x, hfits, 0, hdepth, rest => by
    obtain ⟨y, b, heq, -⟩ := encode_eq_cons hfits
    rw [heq] at hdepth
    simp at hdepth
  | number n, hfits, depth + 1, hdepth, rest => by
    rw [encode, Wire.number, decodeIn_tagged 0 rfl (by omega) hfits]
    rfl
  | string s, hfits, depth + 1, hdepth, rest => by
    rw [encode, Wire.string, List.append_assoc, decodeIn_tagged 3 rfl (by omega) hfits, content,
      chunk_append]
    rfl
  | list items, hfits, depth + 1, hdepth, rest => by
    have hitems : (encodeAll items).length ≤ depth := by
      simp [encode, openArray] at hdepth
      omega
    have hclosed := untilClosed_encodeAll items hfits depth hitems rest
    rw [encode, openArray, List.append_assoc, List.append_assoc, List.singleton_append, decodeIn,
      if_pos rfl, hclosed]
    rfl
  | map entries, hfits, depth + 1, hdepth, rest => by
    have htag : (0xA0 : UInt8).toNat = 32 * 5 := rfl
    obtain ⟨y, b, heq, -⟩ := exists_tagged htag (by omega) hfits.1
    have hentries : (encodeEntries entries).length ≤ depth := by
      simp [encode, mapOf, heq] at hdepth
      omega
    rw [encode, mapOf, List.append_assoc, decodeIn_tagged 5 htag (by omega) hfits.1, content,
      times_encodeEntries entries hfits.2 depth hentries rest]
    rfl
  | nothing, hfits, depth + 1, hdepth, rest => rfl
termination_by structural x => x

theorem untilClosed_encodeAll : ∀ xs : List Item, AllFit xs → ∀ depth, (encodeAll xs).length ≤ depth → ∀ rest,
    untilClosed (decodeIn depth) (encodeAll xs ++ (closeArray ++ rest)) = some (xs, rest)
  | [], _, depth, _, rest => by
    rw [encodeAll, List.nil_append, closeArray, List.singleton_append, untilClosed, if_pos rfl]
  | x :: xs, hfits, depth, hdepth, rest => by
    rw [encodeAll, List.length_append] at hdepth
    have hx := decodeIn_encode x hfits.1 depth (by omega) (encodeAll xs ++ (closeArray ++ rest))
    have hxs := untilClosed_encodeAll xs hfits.2 depth (by omega) rest
    obtain ⟨y, b, heq, hy⟩ := encode_eq_cons hfits.1
    rw [heq, List.cons_append] at hx
    rw [encodeAll, List.append_assoc, heq, List.cons_append, untilClosed_cons hy hx, hxs]
    rfl
termination_by structural xs => xs

theorem times_encodeEntries :
    ∀ es : List (Item × Item), EntriesFit es → ∀ depth, (encodeEntries es).length ≤ depth →
    ∀ rest, times (entry (decodeIn depth)) es.length (encodeEntries es ++ rest) = some (es, rest)
  | [], _, depth, _, rest => rfl
  | (k, x) :: es, hfits, depth, hdepth, rest => by
    rw [encodeEntries, List.length_append, List.length_append] at hdepth
    have hk := decodeIn_encode k hfits.1 depth (by omega) (x.encode ++ (encodeEntries es ++ rest))
    have hx := decodeIn_encode x hfits.2.1 depth (by omega) (encodeEntries es ++ rest)
    have hes := times_encodeEntries es hfits.2.2 depth (by omega) rest
    rw [encodeEntries, List.append_assoc, List.append_assoc, List.length_cons, times, entry, hk, Option.bind_some]
    dsimp only
    rw [hx, Option.map_some, Option.bind_some]
    dsimp only [Prod.map, id]
    rw [hes]
    rfl
termination_by structural es => es

end

/-- **An encoded item is read back, and nothing of what follows it.** -/
theorem decode_encode {x : Item} (h : x.Fits) (rest : Bytes) : decode (x.encode ++ rest) = some (x, rest) :=
  decodeIn_encode x h _ (by simp) rest

/-- Items with the same encoding are the same. -/
theorem eq_of_encode_eq {x y : Item} (hx : x.Fits) (hy : y.Fits) (h : x.encode = y.encode) : x = y := by
  have hdecode := decode_encode hx []
  rw [h, decode_encode hy] at hdecode
  exact (congrArg Prod.fst (Option.some.inj hdecode)).symm

end Item

theorem Item.encodeAll_numbers (ns : List Nat) (b : Bytes) :
    ns.foldl (fun b n => b ++ Wire.number n) b = b ++ encodeAll (ns.map .number) := by
  induction ns generalizing b with
  | nil => exact (List.append_nil b).symm
  | cons n ns ih => rw [List.foldl_cons, ih, List.map_cons, encodeAll, encode, List.append_assoc]

theorem Item.encodeEntries_numbers (fs : List (Bytes × Nat)) (b : Bytes) :
    fs.foldl (fun b f => b ++ Wire.string f.1 ++ Wire.number f.2) b =
      b ++ encodeEntries (fs.map fun f => (.string f.1, .number f.2)) := by
  induction fs generalizing b with
  | nil => exact (List.append_nil b).symm
  | cons f fs ih =>
    rw [List.foldl_cons, ih, List.map_cons, encodeEntries, encode, encode]
    simp only [List.append_assoc]

theorem Item.allFit_numbers {ns : List Nat} (h : ∀ n ∈ ns, n < limit) : AllFit (ns.map .number) := by
  induction ns with
  | nil => trivial
  | cons n ns ih => exact ⟨h n List.mem_cons_self, ih fun m hm => h m (List.mem_cons_of_mem n hm)⟩

theorem Item.entriesFit_numbers {fs : List (Bytes × Nat)} (h : ∀ f ∈ fs, f.1.length < limit ∧ f.2 < limit) :
    EntriesFit (fs.map fun f => (.string f.1, .number f.2)) := by
  induction fs with
  | nil => trivial
  | cons f fs ih =>
    obtain ⟨hname, hnumber⟩ := h f List.mem_cons_self
    exact ⟨hname, hnumber, ih fun g hg => h g (List.mem_cons_of_mem f hg)⟩

end Wire

/-! ## Bitmaps -/

namespace Coverage

/-- Every member can be encoded. -/
def Encodable (c : Coverage) : Prop := ∀ i, c.isSet i = true → i < Wire.limit

/-- What the encoded members stand for. -/
def item (c : Coverage) : Wire.Item :=
  match c.bitmap with
  | none => .nothing
  | some _ => .list (c.toList.map .number)

theorem appendTo_eq (c : Coverage) (b : Bytes) : c.appendTo b = b ++ c.item.encode := by
  unfold appendTo item
  cases c.bitmap with
  | none => rfl
  | some ws =>
    dsimp only
    rw [visit_eq, showUntil_fold, Wire.Item.encodeAll_numbers, Wire.Item.encode, List.append_assoc,
      List.append_assoc, List.append_assoc]

theorem wire_eq (c : Coverage) : c.wire = c.item.encode := by
  rw [wire, appendTo_eq, List.nil_append]

theorem Encodable.fits {c : Coverage} (h : c.Encodable) : c.item.Fits := by
  unfold item
  cases c.bitmap with
  | none => trivial
  | some ws => exact Wire.Item.allFit_numbers fun i hi => h i (mem_toList.mp hi)

theorem toList_eq_of_item_eq {c c' : Coverage} (h : c.item = c'.item) : c.toList = c'.toList := by
  obtain ⟨_ | ws⟩ := c
  · obtain ⟨_ | ws'⟩ := c'
    · rfl
    · cases h
  · obtain ⟨_ | ws'⟩ := c'
    · cases h
    · exact (List.map_inj_right fun _ _ heq => Wire.Item.number.inj heq).mp (Wire.Item.list.inj h)

end Coverage

/-! ## Counters -/

namespace Stats

/-- Every counter can be encoded. -/
def Encodable (s : Stats) : Prop := ∀ f ∈ s.fields, f.2 < Wire.limit

/-- What the encoded counters stand for. -/
def item (s : Stats) : Wire.Item := .map (s.fields.map fun f => (.string f.1, .number f.2))

theorem appendTo_eq (s : Stats) (b : Bytes) : s.appendTo b = b ++ s.item.encode := by
  rw [appendTo, Wire.Item.encodeEntries_numbers, item, Wire.Item.encode, List.length_map, List.append_assoc]

theorem wire_eq (s : Stats) : s.wire = s.item.encode := by
  rw [wire, appendTo_eq, List.nil_append]

theorem Encodable.fits {s : Stats} (h : s.Encodable) : s.item.Fits := by
  have hnames : ∀ f ∈ s.fields, f.1.length < Wire.limit := by
    simp only [fields, List.forall_mem_cons]
    decide
  exact ⟨by show 6 < Wire.limit; decide, Wire.Item.entriesFit_numbers fun f hf => ⟨hnames f hf, h f hf⟩⟩

theorem eq_of_item_eq {s s' : Stats} (h : s.item = s'.item) : s = s' := by
  obtain ⟨_, _, _, _, _, _⟩ := s
  obtain ⟨_, _, _, _, _, _⟩ := s'
  simp [item, fields] at h
  simp [h]

end Stats

/-! ## Decoding -/

/-- **The wire form decodes uniquely.**  Whatever follows, the members of a bitmap are read back in ascending
order, and the six counters under their names.  So what was written can be told from its bytes, wherever they were
appended. -/
theorem wire_decodes_uniquely :
    (∀ c : Coverage, c.Encodable → c.bitmap ≠ none → ∃ is : List Nat,
      (∀ rest, Wire.decode (c.wire ++ rest) = some (.list (is.map .number), rest)) ∧ is.Pairwise (· < ·) ∧
        ∀ i, i ∈ is ↔ c.isSet i = true) ∧
    (∀ s : Stats, s.Encodable → ∀ rest, Wire.decode (s.wire ++ rest) =
      some (.map [(.string (utf8 "executed"), .number s.executed), (.string (utf8 "pushes"), .number s.pushes),
        (.string (utf8 "max_depth"), .number s.maxDepth), (.string (utf8 "depth"), .number s.depth),
        (.string (utf8 "covered"), .number s.covered), (.string (utf8 "total"), .number s.total)], rest)) ∧
    (∀ c c' : Coverage, c.Encodable → c'.Encodable → c.wire = c'.wire → ∀ i, c.isSet i = c'.isSet i) ∧
    (∀ s s' : Stats, s.Encodable → s'.Encodable → s.wire = s'.wire → s = s') ∧
    (∀ (c : Coverage) (b : Bytes), c.appendTo b = b ++ c.wire) ∧
    ∀ (s : Stats) (b : Bytes), s.appendTo b = b ++ s.wire := by
  refine ⟨?_, ?_, ?_, ?_, ?_, ?_⟩
  · intro c hc hsome
    obtain ⟨ws, hws⟩ := Option.ne_none_iff_exists'.mp hsome
    have hitem : c.item = .list (c.toList.map .number) := by rw [Coverage.item, hws]
    refine ⟨c.toList, fun rest => ?_, c.pairwise_toList, fun i => Coverage.mem_toList⟩
    rw [c.wire_eq, Wire.Item.decode_encode hc.fits, hitem]
  · intro s hs rest
    rw [s.wire_eq, Wire.Item.decode_encode hs.fits]
    rfl
  · intro c c' hc hc' heq i
    rw [c.wire_eq, c'.wire_eq] at heq
    have hlist := Coverage.toList_eq_of_item_eq (Wire.Item.eq_of_encode_eq hc.fits hc'.fits heq)
    rw [Bool.eq_iff_iff, ← Coverage.mem_toList, ← Coverage.mem_toList, hlist]
  · intro s s' hs hs' heq
    rw [s.wire_eq, s'.wire_eq] at heq
    exact Stats.eq_of_item_eq (Wire.Item.eq_of_encode_eq hs.fits hs'.fits heq)
  · intro c b
    rw [c.appendTo_eq, c.wire_eq]
  · intro s b
    rw [s.appendTo_eq, s.wire_eq]

theorem wire_decodes_uniquely_closing_bytes :
    (∃ is : List Nat, Wire.decode (((Coverage.set {} 65535).set 255).wire ++ [0xFF]) =
      some (.list (is.map .number), [0xFF]) ∧ is.Pairwise (· < ·) ∧ ∀ i, i ∈ is ↔ i = 255 ∨ i = 65535) ∧
    Wire.decode ((⟨65535, 4294967295, 255, 24, 256, 18446744073709551615⟩ : Stats).wire ++ [0xFF]) =
      some (.map [(.string (utf8 "executed"), .number 65535), (.string (utf8 "pushes"), .number 4294967295),
        (.string (utf8 "max_depth"), .number 255), (.string (utf8 "depth"), .number 24),
        (.string (utf8 "covered"), .number 256), (.string (utf8 "total"), .number 18446744073709551615)],
          [0xFF]) := by
  have hset : ∀ i, ((Coverage.set {} 65535).set 255).isSet i = true ↔ i = 255 ∨ i = 65535 := by
    intro i
    rw [Coverage.isSet_set, Coverage.isSet_set, Coverage.isSet_empty, Bool.false_or, Bool.or_eq_true, beq_iff_eq,
      beq_iff_eq]
    omega
  have hc : ((Coverage.set {} 65535).set 255).Encodable := by
    intro i hi
    have hi' := (hset i).mp hi
    rw [Wire.limit]
    omega
  obtain ⟨hcoverage, hstats, -⟩ := wire_decodes_uniquely
  obtain ⟨is, hdecode, hsorted, hmem⟩ := hcoverage _ hc (Option.some_ne_none _)
  refine ⟨⟨is, hdecode [0xFF], hsorted, fun i => (hmem i).trans (hset i)⟩, hstats _ ?_ [0xFF]⟩
  unfold Stats.Encodable
  decide

end RegisterMachine
