import Rmdb.Execution.Abstract

/-!
# The order of keys

`ix_compare` orders the keys of an index, and other code relies on what that order is:
`maintain_parent`, `UpdateExecutor` and `abort` test with `memcmp` whether two keys are the
same, and a condition on a column is evaluated by `AbstractExecutor::compare`. `keyOrder`
says that all of these agree: the order is total, two keys are equal in it only if they
have the same bytes, and it is that of the executors, column after column.
-/

namespace Rmdb.Execution

open Lib

/-- `AbstractExecutor::compare` on keys: the first column in which they differ decides. -/
def compareKeys (op : CompOp) : List (ColType × ℕ) → Bytes → Bytes → Bool
  | [], _, _ => op.holds 0
  | (type, len) :: cols, a, b =>
    if compare a b type len .eq then compareKeys op cols (a.drop len) (b.drop len) else compare a b type len op

/-- **The order of the keys** of an index, where `c a b` is `ix_compare` of two keys. -/
structure KeyOrder (kc : KeyCols) (c : Key kc → Key kc → ℤ) : Prop where
  /-- Exactly one of "below", "the same bytes" and "above" holds. -/
  trichotomy : ∀ a b, (c a b < 0 ∧ a.1 ≠ b.1 ∧ ¬ 0 < c a b) ∨ (¬ c a b < 0 ∧ a.1 = b.1 ∧ ¬ 0 < c a b) ∨
    (¬ c a b < 0 ∧ a.1 ≠ b.1 ∧ 0 < c a b)
  /-- Above is below, seen from the other key. -/
  swap : ∀ a b, 0 < c a b ↔ c b a < 0
  /-- "Below" is transitive. -/
  lt_trans : ∀ a b d, c a b < 0 → c b d < 0 → c a d < 0
  /-- "Not above" is transitive. -/
  le_trans : ∀ a b d, c a b ≤ 0 → c b d ≤ 0 → c a d ≤ 0
  /-- Keys that compare equal have the same bytes. -/
  zero_iff : ∀ a b, c a b = 0 ↔ a.1 = b.1
  /-- The `memcmp` over the whole key is zero for the same keys. -/
  memcmp_iff : ∀ a b : Key kc, memcmp (colTotLen kc.cols) a.1 b.1 = 0 ↔ c a b = 0
  /-- Every operator has the outcome that the executors' comparisons of the columns have. -/
  compare : ∀ op a b, op.holds (c a b) = compareKeys op kc.cols a.1 b.1

/-- The first column that differs decides, for every operator. -/
theorem holds_ixCompare (op : CompOp) (cols : List (ColType × ℕ)) (a b : Bytes) :
    op.holds (ixCompare cols a b) = compareKeys op cols a b := by
  induction cols generalizing a b with
  | nil => rfl
  | cons col cols ih =>
    obtain ⟨type, len⟩ := col
    rw [ixCompare, compareKeys]
    by_cases h : compareCol type len a b = 0
    · have heq : compare a b type len .eq = true := decide_eq_true h
      rw [if_neg (not_not.mpr h), if_pos heq]
      exact ih ..
    · have heq : ¬ compare a b type len .eq = true := fun heq => h (of_decide_eq_true heq)
      rw [if_pos h, if_neg heq]
      rfl

/-- `memcmp` over all bytes of two strings of one length is zero only if they are the same. -/
theorem memcmp_eq_zero_iff_eq {n : ℕ} {a b : Bytes} (ha : a.length = n) (hb : b.length = n) : memcmp n a b = 0 ↔ a = b := by
  constructor
  · intro h
    have htake := memcmp_eq_zero ha.ge hb.ge h
    rwa [List.take_of_length_le ha.le, List.take_of_length_le hb.le] at htake
  · rintro rfl
    exact (threeWay_memcmp n).self a

/-- **The keys of every index** are in this order. -/
theorem keyOrder (kc : KeyCols) : KeyOrder kc fun a b => ixCompare kc.cols a.1 b.1 := by
  have hthree := Key.threeWay kc
  have hzero : ∀ a b : Key kc, ixCompare kc.cols a.1 b.1 = 0 ↔ a.1 = b.1 := fun a b =>
    (Key.eq_iff a b).symm.trans Subtype.ext_iff
  refine ⟨?_, ?_, ?_, fun a b d hab hbd => hthree.trans hab hbd, hzero,
    fun a b => (memcmp_eq_zero_iff_eq a.2 b.2).trans (hzero a b).symm, fun op a b => holds_ixCompare op kc.cols a.1 b.1⟩
  · intro a b
    by_cases heq : a.1 = b.1
    · have h := (hzero a b).mpr heq
      exact .inr (.inl ⟨by omega, heq, by omega⟩)
    · rcases lt_or_gt_of_ne (mt (hzero a b).mp heq) with h | h
      · exact .inl ⟨h, heq, by omega⟩
      · exact .inr (.inr ⟨by omega, heq, h⟩)
  · intro a b
    have hneg : ixCompare kc.cols b.1 a.1 = -ixCompare kc.cols a.1 b.1 := hthree.neg a b
    omega
  · intro a b d hab hbd
    exact hthree.isStrictWeakOrder.trans a b d hab hbd

/-- A key of an `INT` and a `CHAR(2)`: negative numbers come before the others. -/
example : compareKeys .lt [(.int, 4), (.string, 2)] [255, 255, 255, 255, 98, 0] [0, 0, 0, 0, 97, 0] = true := by decide

end Rmdb.Execution
