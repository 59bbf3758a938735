import RegisterMachine.Machine.Wire

/-!
# Coverage

The set of instruction indexes that have been executed, as a bitmap of 64 bit words that grows as needed.

* `Coverage.set`, `Coverage.isSet`, `Coverage.reset`, `Coverage.copy`.
* `Coverage.visit`: shows the members to a visitor in ascending order, until it has seen enough; `Coverage.toList`
  is the list of all of them, and `Coverage.size` counts them.
* `Coverage.missing n`: the indexes below `n` that are no members.
* `Coverage.appendTo`, `Coverage.wire`: the encoded members; a bitmap that was never written to is encoded as
  nothing.
-/

namespace RegisterMachine

/-- A set of indexes: bit `i % 64` of word `i / 64`.  There is no bitmap before the first write. -/
structure Coverage where
  bitmap : Option (Array UInt64) := none
deriving DecidableEq, Repr

namespace Coverage

/-- The words of the bitmap. -/
def words (c : Coverage) : Array UInt64 := c.bitmap.getD #[]

/-- A word with only bit `j` set. -/
def mask (j : Nat) : UInt64 := (1 : UInt64) <<< j.toUInt64

/-- Bit `j` of a word. -/
def bit (w : UInt64) (j : Nat) : Bool := w &&& mask j != 0

/-- Zero words at the end until there are at least `n`. -/
def grow (ws : Array UInt64) (n : Nat) : Array UInt64 := ws ++ Array.replicate (n - ws.size) 0

/-- The set with `i` in it. -/
def set (c : Coverage) (i : Nat) : Coverage :=
  ⟨some ((grow c.words (i / 64 + 1)).modify (i / 64) (· ||| mask (i % 64)))⟩

/-- Membership. -/
def isSet (c : Coverage) (i : Nat) : Bool :=
  match c.words[i / 64]? with
  | some w => bit w (i % 64)
  | none => false

/-- A word with bit `j` cleared. -/
def clear (w : UInt64) (j : Nat) : UInt64 := w &&& ~~~mask j

/-- The number of zero bits below the lowest set bit of a word. -/
def trailingZeros (w : UInt64) : Nat := w.toBitVec.ctz.toNat

theorem toBitVec_mask {j : Nat} (h : j < 64) : (mask j).toBitVec = BitVec.twoPow 64 j := by
  have hj : (j.toUInt64.toBitVec % 64).toNat = j := by
    rw [BitVec.toNat_umod]
    simp
    omega
  rw [mask, UInt64.toBitVec_shiftLeft, BitVec.twoPow_eq, BitVec.shiftLeft_eq', hj]
  rfl

theorem getLsbD_clear {j : Nat} (h : j < 64) (w : UInt64) (i : Nat) :
    (clear w j).toBitVec.getLsbD i = (w.toBitVec.getLsbD i && i != j) := by
  rw [clear, UInt64.toBitVec_and, UInt64.toBitVec_not, toBitVec_mask h, BitVec.getLsbD_and, BitVec.getLsbD_not,
    BitVec.getLsbD_twoPow, decide_eq_true h, Bool.true_and]
  by_cases hi : i < 64
  · rw [decide_eq_true hi, Bool.true_and]
    by_cases hij : i = j
    · simp [hij]
    · have hji : ¬ j = i := fun heq => hij heq.symm
      simp [hij, hji]
  · rw [BitVec.getLsbD_of_ge _ i (by omega), Bool.false_and, Bool.false_and]

theorem toBitVec_ne_zero {w : UInt64} (h : w ≠ 0) : w.toBitVec ≠ 0#64 :=
  fun hz => h (UInt64.toBitVec_inj.mp hz)

theorem trailingZeros_lt {w : UInt64} (h : w ≠ 0) : trailingZeros w < 64 :=
  BitVec.ctz_lt_iff_ne_zero.mpr (toBitVec_ne_zero h)

/-- A word gets smaller when its lowest set bit is cleared. -/
theorem clear_lt {w : UInt64} (h : w ≠ 0) : (clear w (trailingZeros w)).toNat < w.toNat := by
  have hset : w.toBitVec.getLsbD (trailingZeros w) = true :=
    BitVec.getLsbD_true_ctz_of_ne_zero (toBitVec_ne_zero h)
  have hcleared := getLsbD_clear (trailingZeros_lt h) w (trailingZeros w)
  refine Nat.lt_of_le_of_ne ?_ fun heq => ?_
  · rw [clear, UInt64.toNat_and]
    exact Nat.and_le_left
  · rw [UInt64.toNat_inj.mp heq, hset] at hcleared
    simp at hcleared

section Visit

variable {σ : Type} (f : σ → Nat → σ × Bool)

/-- Shows the members in word number `k` to a visitor, lowest first, until it has seen enough, and tells whether it
wants more. -/
def visitWord (k : Nat) (w : UInt64) (s : σ) : σ × Bool :=
  if w = 0 then (s, true)
  else
    match f s (k * 64 + trailingZeros w) with
    | (s, true) => visitWord k (clear w (trailingZeros w)) s
    | (s, false) => (s, false)
termination_by w.toNat
decreasing_by exact clear_lt ‹_›

/-- Shows the members in some words to a visitor, until it has seen enough.  The first of the words is
number `k`. -/
def visitWords (k : Nat) : List UInt64 → σ → σ × Bool
  | [], s => (s, true)
  | w :: ws, s =>
    match visitWord f k w s with
    | (s, true) => visitWords (k + 1) ws s
    | (s, false) => (s, false)

/-- Shows the members to a visitor in ascending order, until it has seen enough. -/
def visit (c : Coverage) (s : σ) : σ := (visitWords f 0 c.words.toList s).1

end Visit

/-- The members in ascending order. -/
def toList (c : Coverage) : List Nat := (c.visit (fun seen i => (i :: seen, true)) []).reverse

/-- The number of set bits of a word. -/
def popCount (w : UInt64) : Nat := (List.range 64).countP (bit w)

/-- The number of members. -/
def size (c : Coverage) : Nat := c.words.foldl (fun n w => n + popCount w) 0

/-- The empty set, on the same words. -/
def reset (c : Coverage) : Coverage := ⟨c.bitmap.map fun ws => ws.map fun _ => 0⟩

/-- The indexes below `n` that are no members. -/
def missing (c : Coverage) (n : Nat) : List Nat := (List.range n).filter fun i => !c.isSet i

/-- The same set with a bitmap of its own. -/
def copy (c : Coverage) : Coverage := ⟨some c.words⟩

/-- Appends the encoded members to a buffer. -/
def appendTo (c : Coverage) (b : Bytes) : Bytes :=
  match c.bitmap with
  | none => b ++ Wire.nothing
  | some _ => c.visit (fun b i => (b ++ Wire.number i, true)) (b ++ Wire.openArray) ++ Wire.closeArray

/-- The encoded members. -/
def wire (c : Coverage) : Bytes := c.appendTo []

end Coverage

end RegisterMachine
