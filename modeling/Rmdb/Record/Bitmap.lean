import Rmdb.Lib.Block
import Rmdb.Record.File
import Mathlib.Data.List.Range

/-!
# Bitmaps

`Bitmap`: the bits at an address of a page, the first one the highest of its byte. A `char`
is signed. It is promoted to `int` for the bit operations, with its sign, and the result
is cut off to a `char` again; nothing of this can be seen in the bits
(`isSet_set`, `isSet_reset`).
-/

namespace Rmdb.Record

open Lib

/-- The loop of `next_bit`: `bound` bits from `i` on, and `maxN` if the test fails for all of them. -/
def nextBitFrom (test : ℕ → Bool) (maxN : ℕ) : ℕ → ℕ → ℕ
  | 0, _ => maxN
  | bound + 1, i => if test i then i else nextBitFrom test maxN bound (i + 1)

namespace Bitmap

/-- `BITMAP_HIGHEST_BIT`. -/
def BITMAP_HIGHEST_BIT : UInt32 := 0x80

/-- `get_bucket`. -/
def getBucket (pos : ℕ) : ℕ := pos / 8

/-- `get_bit`. -/
def getBit (pos : ℕ) : Int8 := (BITMAP_HIGHEST_BIT >>> UInt32.ofNat (pos % 8)).toUInt8.toInt8

/-- A `char` with a bit set: `c |= get_bit(pos)`. -/
def setChar (c : UInt8) (pos : ℕ) : UInt8 := (c.toInt8.toInt32 ||| (getBit pos).toInt32).toInt8.toUInt8

/-- A `char` with a bit reset: `c &= static_cast<char>(~get_bit(pos))`. -/
def resetChar (c : UInt8) (pos : ℕ) : UInt8 :=
  (c.toInt8.toInt32 &&& (~~~ (getBit pos).toInt32).toInt8.toInt32).toInt8.toUInt8

/-- `(c & get_bit(pos)) != 0`. -/
def testChar (c : UInt8) (pos : ℕ) : Bool := (c.toInt8.toInt32 &&& (getBit pos).toInt32) != 0

variable {n : ℕ}

/-- `init`. -/
def init (data : Fin n → UInt8) (bm size : ℕ) : Fin n → UInt8 := copyTo data bm (List.replicate size 0)

/-- `set`. -/
def set (data : Fin n → UInt8) (bm pos : ℕ) : Fin n → UInt8 :=
  copyTo data (bm + getBucket pos) [setChar (cellAt data (bm + getBucket pos)) pos]

/-- `reset`. -/
def reset (data : Fin n → UInt8) (bm pos : ℕ) : Fin n → UInt8 :=
  copyTo data (bm + getBucket pos) [resetChar (cellAt data (bm + getBucket pos)) pos]

/-- `is_set`. -/
def isSet (data : Fin n → UInt8) (bm pos : ℕ) : Bool := testChar (cellAt data (bm + getBucket pos)) pos

/-- `next_bit`. -/
def nextBit (bit : Bool) (data : Fin n → UInt8) (bm maxN : ℕ) (curr : ℤ) : ℕ :=
  nextBitFrom (fun i => isSet data bm i == bit) maxN (maxN - (curr + 1).toNat) (curr + 1).toNat

/-- `first_bit`. -/
def firstBit (bit : Bool) (data : Fin n → UInt8) (bm maxN : ℕ) : ℕ := nextBit bit data bm maxN (-1)

/-! ### The loop -/

theorem nextBitFrom_eq (test : ℕ → Bool) {maxN : ℕ} : ∀ bound i : ℕ, i + bound = maxN →
    nextBitFrom test maxN bound i = i + (List.range' i bound).findIdx test
  | 0, i, h => by
    rw [nextBitFrom]
    simpa using h.symm
  | bound + 1, i, h => by
    rw [nextBitFrom, List.range'_succ, List.findIdx_cons]
    by_cases hbit : test i = true
    · rw [if_pos hbit, hbit]
      rfl
    · rw [if_neg hbit, nextBitFrom_eq test bound (i + 1) (by omega)]
      simp only [hbit, cond_false]
      omega

/-! ### One byte -/

theorem getLsbD_getBit : ∀ i < 8, ∀ k < 8, (getBit i).toUInt8.toBitVec.getLsbD k = decide (k = 7 - i) := by
  decide

theorem getBit_mod (pos : ℕ) : getBit (pos % 8) = getBit pos := by
  unfold getBit
  rw [Nat.mod_mod]

theorem setChar_eq (c : UInt8) (pos : ℕ) : setChar c pos = c ||| (getBit pos).toUInt8 := by
  unfold setChar
  rw [← Int8.toInt32_or, Int8.toInt8_toInt32, Int8.toUInt8_or]
  rfl

theorem resetChar_eq (c : UInt8) (pos : ℕ) : resetChar c pos = c &&& ~~~ (getBit pos).toUInt8 := by
  unfold resetChar
  rw [Int32.toInt8_not, Int8.toInt8_toInt32, ← Int8.toInt32_and, Int8.toInt8_toInt32, Int8.toUInt8_and, Int8.toUInt8_not]
  rfl

theorem testChar_eq (c : UInt8) (pos : ℕ) : testChar c pos = c.toBitVec.getLsbD (7 - pos % 8) := by
  have hlt : pos % 8 < 8 := Nat.mod_lt _ (by decide)
  have hbit : ∀ k < 8, (c.toBitVec &&& (getBit pos).toUInt8.toBitVec).getLsbD k =
      (c.toBitVec.getLsbD k && decide (k = 7 - pos % 8)) := by
    intro k hk
    rw [BitVec.getLsbD_and, ← getBit_mod, getLsbD_getBit _ hlt k hk]
  have hzero : (c.toInt8.toInt32 &&& (getBit pos).toInt32) = 0 ↔ c.toBitVec &&& (getBit pos).toUInt8.toBitVec = 0#8 := by
    rw [← Int8.toInt32_and]
    constructor
    · intro h
      have h8 := congrArg Int32.toInt8 h
      rw [Int8.toInt8_toInt32] at h8
      exact congrArg Int8.toBitVec h8
    · intro h
      have h8 : c.toInt8 &&& getBit pos = 0 := Int8.toBitVec_inj.mp h
      rw [h8]
      rfl
  unfold testChar
  rw [Bool.eq_iff_iff, bne_iff_ne, ne_eq, hzero]
  constructor
  · intro hne
    by_contra hclear
    refine hne (BitVec.eq_of_getLsbD_eq ?_)
    intro k hk
    rw [hbit k hk, BitVec.getLsbD_zero]
    by_cases hk' : k = 7 - pos % 8
    · subst hk'
      simpa using hclear
    · simp [hk']
  · intro hset hz
    have h := hbit (7 - pos % 8) (by omega)
    rw [hz, hset, BitVec.getLsbD_zero] at h
    simp at h

theorem testChar_setChar (c : UInt8) (i j : ℕ) : testChar (setChar c i) j = (decide (j % 8 = i % 8) || testChar c j) := by
  have hi : i % 8 < 8 := Nat.mod_lt _ (by decide)
  rw [testChar_eq, testChar_eq, setChar_eq, UInt8.toBitVec_or, BitVec.getLsbD_or, ← getBit_mod,
    getLsbD_getBit _ hi _ (by omega), Bool.or_comm]
  congr 1
  exact decide_eq_decide.mpr (by omega)

theorem testChar_resetChar (c : UInt8) (i j : ℕ) :
    testChar (resetChar c i) j = (!decide (j % 8 = i % 8) && testChar c j) := by
  have hi : i % 8 < 8 := Nat.mod_lt _ (by decide)
  rw [testChar_eq, testChar_eq, resetChar_eq, UInt8.toBitVec_and, BitVec.getLsbD_and, UInt8.toBitVec_not,
    BitVec.getLsbD_not, ← getBit_mod, getLsbD_getBit _ hi _ (by omega), Bool.and_comm]
  have hlt : 7 - j % 8 < 8 := by omega
  simp only [hlt, decide_true, Bool.true_and]
  congr 2
  exact decide_eq_decide.mpr (by omega)

/-! ### The bits of a page -/

section Page

variable {data : Fin n → UInt8} {bm i j : ℕ}

theorem isSet_copyTo_of_disjoint {offset : ℕ} {src : List UInt8} (h : offset + src.length ≤ n)
    (hd : offset + src.length ≤ bm + getBucket j ∨ bm + getBucket j < offset) :
    isSet (copyTo data offset src) bm j = isSet data bm j := by
  unfold isSet
  rw [cellAt_copyTo_of_disjoint h hd]

/-- `set` sets one bit. -/
theorem isSet_set (h : bm + getBucket i < n) : isSet (set data bm i) bm j = (decide (j = i) || isSet data bm j) := by
  by_cases hb : getBucket j = getBucket i
  · unfold isSet set
    rw [hb, cellAt_copyTo (Nat.succ_le_of_lt h), if_pos ⟨le_refl _, by simp⟩, Nat.sub_self, List.getD_cons_zero,
      testChar_setChar]
    congr 1
    unfold getBucket at hb
    exact decide_eq_decide.mpr (by omega)
  · have hne : j ≠ i := fun hji => hb (by rw [hji])
    unfold set
    rw [isSet_copyTo_of_disjoint (Nat.succ_le_of_lt h) (by simp only [List.length_singleton]; omega), decide_eq_false hne,
      Bool.false_or]

/-- `reset` resets one bit. -/
theorem isSet_reset (h : bm + getBucket i < n) : isSet (reset data bm i) bm j = (!decide (j = i) && isSet data bm j) := by
  by_cases hb : getBucket j = getBucket i
  · unfold isSet reset
    rw [hb, cellAt_copyTo (Nat.succ_le_of_lt h), if_pos ⟨le_refl _, by simp⟩, Nat.sub_self, List.getD_cons_zero,
      testChar_resetChar]
    congr 2
    unfold getBucket at hb
    exact decide_eq_decide.mpr (by omega)
  · have hne : j ≠ i := fun hji => hb (by rw [hji])
    unfold reset
    rw [isSet_copyTo_of_disjoint (Nat.succ_le_of_lt h) (by simp only [List.length_singleton]; omega), decide_eq_false hne,
      Bool.not_false, Bool.true_and]

/-- `init` resets all bits. -/
theorem isSet_init {size : ℕ} (h : bm + size ≤ n) (hj : getBucket j < size) : isSet (init data bm size) bm j = false := by
  have hcell : cellAt (init data bm size) (bm + getBucket j) = 0 := by
    unfold init
    rw [cellAt_copyTo (by simpa using h), if_pos (by simp [hj]), Nat.add_sub_cancel_left]
    simp [List.getD_eq_getElem?_getD, hj]
  have hzero : ∀ k : ℕ, testChar 0 k = false := fun k => by
    rw [testChar_eq]
    exact BitVec.getLsbD_zero
  unfold isSet
  rw [hcell, hzero]

/-- `first_bit` finds the first bit of the kind, or the end. -/
theorem firstBit_eq (bit : Bool) (maxN : ℕ) :
    firstBit bit data bm maxN = (List.range maxN).findIdx fun j => isSet data bm j == bit := by
  unfold firstBit nextBit
  rw [show ((-1 : ℤ) + 1).toNat = 0 from rfl, Nat.sub_zero, nextBitFrom_eq _ maxN 0 (Nat.zero_add _), Nat.zero_add,
    List.range_eq_range']

end Page

end Bitmap

end Rmdb.Record
