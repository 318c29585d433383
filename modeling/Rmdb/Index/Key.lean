import Rmdb.Common.Compare
import Rmdb.System.Meta
import Mathlib.Data.List.Lex

/-!
# The values of keys

A tree compares its keys with `ix_compare`, so a key may be kept as what this makes of it: a
number for each number and one for each byte of a `CHAR`, column after column, in
lexicographic order (`keyVal`). Only `maintain_parent` looks at the bytes, with `memcmp`, when it
asks whether a separator has still the key that it should have. Keys without a `FLOAT` have the same
value only if they have the same bytes. A `FLOAT` zero has two bit patterns, and the two compare equal:
`maintain_parent` may then write one zero over the other and go on to the next level, where on the
values it stops. A NaN compares equal to everything; no statement can store one (`NoNaN`).
-/

namespace Rmdb.Index

open Lib

/-- The bytes of a `CHAR`, as numbers. -/
def charVal : ℕ → Bytes → List ℤ
  | 0, _ => []
  | n + 1, bs => ((bs.headD 0).toNat : ℤ) :: charVal n bs.tail

/-- The value of a column, as `ix_compare` sees it. -/
def colVal (c : ColType × ℕ) (bs : Bytes) : List ℤ :=
  match c.1 with
  | .int => [leInt 4 bs]
  | .float => [floatRank (leNat 4 bs)]
  | .bigint | .datetime => [leInt 8 bs]
  | .string => charVal c.2 bs

/-- The value of a key: the values of its columns, each at the running offset. -/
def keyVal : List (ColType × ℕ) → Bytes → List ℤ
  | [], _ => []
  | c :: cols, bs => colVal c bs ++ keyVal cols (bs.drop c.2)

/-- The column is not a NaN. -/
def ColNoNaN (c : ColType × ℕ) (bs : Bytes) : Prop := c.1 = .float → isNaN32 (leNat 4 bs) = false

/-- No column of the key is a NaN. -/
def NoNaN : List (ColType × ℕ) → Bytes → Prop
  | [], _ => True
  | c :: cols, bs => ColNoNaN c bs ∧ NoNaN cols (bs.drop c.2)

/-! ### Values are compared as keys are -/

theorem sign3_cons (x y : ℤ) (a b : List ℤ) :
    sign3 (x :: a) (y :: b) = if sign3 x y ≠ 0 then sign3 x y else sign3 a b := by
  unfold sign3
  rcases lt_trichotomy x y with h | rfl | h
  · simp [List.cons_lt_cons_iff, h]
  · simp
  · simp [List.cons_lt_cons_iff, h, h.not_gt, h.ne']

theorem sign3_neg_iff {a b : List ℤ} : sign3 a b < 0 ↔ a < b := by
  unfold sign3
  split_ifs with h1 h2 <;> simp [h1]

theorem sign3_pos_iff {a b : List ℤ} : 0 < sign3 a b ↔ b < a := by
  unfold sign3
  split_ifs with h1 h2
  · simpa using le_of_lt h1
  · simpa using h2
  · simpa using h2

theorem sign3_zero_iff {a b : List ℤ} : sign3 a b = 0 ↔ a = b := by
  unfold sign3
  rcases lt_trichotomy a b with h | rfl | h
  · simpa [h] using h.ne
  · simp
  · have h' : ¬ a < b := h.not_gt
    simpa [h, h'] using h.ne'

/-- Values of equal length are compared before what follows them. -/
theorem sign3_append : ∀ {x y : List ℤ} (a b : List ℤ), x.length = y.length →
    sign3 (x ++ a) (y ++ b) = if sign3 x y ≠ 0 then sign3 x y else sign3 a b
  | [], [], a, b, _ => by simp [sign3]
  | _ :: _, [], _, _, h => by cases h
  | [], _ :: _, _, _, h => by cases h
  | u :: x, v :: y, a, b, h => by
    rw [List.cons_append, List.cons_append, sign3_cons, sign3_cons, sign3_append a b (Nat.succ.inj h)]
    by_cases huv : sign3 u v = 0
    · simp [huv]
    · simp [huv]

theorem length_charVal (n : ℕ) (bs : Bytes) : (charVal n bs).length = n := by
  induction n generalizing bs with
  | zero => rfl
  | succ n ih => simp [charVal, ih]

theorem length_colVal (c : ColType × ℕ) (a b : Bytes) : (colVal c a).length = (colVal c b).length := by
  unfold colVal
  cases c.1 <;> simp [length_charVal]

theorem memcmp_eq (n : ℕ) (a b : Bytes) : memcmp n a b = sign3 (charVal n a) (charVal n b) := by
  induction n generalizing a b with
  | zero => simp [memcmp, charVal, sign3]
  | succ n ih =>
    have hcast : sign3 ((a.headD 0).toNat : ℤ) (b.headD 0).toNat = sign3 (a.headD 0).toNat (b.headD 0).toNat := by
      simp [sign3]
    rw [memcmp, charVal, charVal, sign3_cons, lex3, hcast, ih]

theorem sign3_singleton (x y : ℤ) : sign3 [x] [y] = sign3 x y := by
  rw [sign3_cons]
  have hnil : sign3 ([] : List ℤ) [] = 0 := by simp [sign3]
  by_cases h : sign3 x y = 0
  · simp [h, hnil]
  · simp [h]

/-- A column is compared by its value. -/
theorem compareCol_eq {c : ColType × ℕ} {a b : Bytes} (ha : ColNoNaN c a) (hb : ColNoNaN c b) :
    compareCol c.1 c.2 a b = sign3 (colVal c a) (colVal c b) := by
  obtain ⟨type, len⟩ := c
  cases type with
  | int => exact (sign3_singleton _ _).symm
  | float =>
    have h1 := ha rfl
    have h2 := hb rfl
    simp only [compareCol, compareFloat, h1, h2, Bool.or_self, Bool.false_eq_true, if_false, colVal, sign3_singleton]
  | string => exact memcmp_eq len a b
  | bigint => exact (sign3_singleton _ _).symm
  | datetime => exact (sign3_singleton _ _).symm

/-- **`ix_compare`** compares the values of keys. -/
theorem ixCompare_eq : ∀ {cols : List (ColType × ℕ)} {a b : Bytes}, NoNaN cols a → NoNaN cols b →
    ixCompare cols a b = sign3 (keyVal cols a) (keyVal cols b)
  | [], _, _, _, _ => by simp [ixCompare, keyVal, sign3]
  | c :: cols, a, b, ⟨ha, ha'⟩, ⟨hb, hb'⟩ => by
    rw [ixCompare, keyVal, keyVal, sign3_append _ _ (length_colVal c a b), compareCol_eq ha hb, ixCompare_eq ha' hb']

end Rmdb.Index
