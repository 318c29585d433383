import Rmdb.Lib.ThreeWay
import Mathlib.Data.List.Basic
import Mathlib.Order.Nat
import Mathlib.Algebra.Group.Int.Defs
import Mathlib.Algebra.GroupWithZero.Nat

/-!
# Column values and their comparison

Column values are stored as raw bytes inside records and index keys and are
compared by type: `INT` as a 32-bit and `BIGINT` and `DATETIME` as a 64-bit
little-endian two's complement integer, `FLOAT` as an IEEE single, `CHAR` byte by
byte. The comparison is written twice in the source, in `ix_compare` (index keys)
and in `AbstractExecutor::compare` (conditions); both are the same function of a
column's type and length, `compareCol`. `ixCompare` runs it over the columns of a
composite key.

The main result is that on well-formed columns without `FLOAT` the keys are
linearly ordered by `ixCompare`, and that it tells every two keys apart
(`Key.instLinearOrder`).

A pointer into a buffer is the list of bytes from there on. Bytes past the end of
the buffer read as `0`; well-formed columns never read them.
-/

namespace Rmdb

open Lib

/-- Raw bytes. -/
abbrev Bytes := List UInt8

/-- `ColType`. -/
inductive ColType where
  /-- `TYPE_INT`. -/
  | int
  /-- `TYPE_FLOAT`. -/
  | float
  /-- `TYPE_STRING`. -/
  | string
  /-- `TYPE_BIGINT`. -/
  | bigint
  /-- `TYPE_DATETIME`. -/
  | datetime
  deriving DecidableEq, Repr

/-! ### Reading numbers -/

/-- The little-endian number in the first `w` bytes. -/
def leNat : ℕ → Bytes → ℕ
  | 0, _ => 0
  | w + 1, bs => (bs.headD 0).toNat + 256 * leNat w bs.tail

/-- The two's complement integer in the first `w` bytes. -/
def leInt (w : ℕ) (bs : Bytes) : ℤ :=
  if leNat w bs < 2 ^ (8 * w - 1) then leNat w bs else (leNat w bs : ℤ) - 2 ^ (8 * w)

/-- Whether the bit pattern `n` of an IEEE single is a NaN. -/
def isNaN32 (n : ℕ) : Bool := 0x7f800000 < n % 0x80000000

/-- An integer ordered as the single with the bit pattern `n` is: sign and magnitude. -/
def floatRank (n : ℕ) : ℤ := if n < 0x80000000 then n else -((n : ℤ) - 0x80000000)

/-- `(fa < fb) ? -1 : ((fa > fb) ? 1 : 0)` on IEEE singles: a NaN is neither below nor above. -/
def compareFloat (a b : Bytes) : ℤ :=
  if isNaN32 (leNat 4 a) || isNaN32 (leNat 4 b) then 0
  else sign3 (floatRank (leNat 4 a)) (floatRank (leNat 4 b))

/-- `memcmp`, with the result reduced to its sign. -/
def memcmp : ℕ → Bytes → Bytes → ℤ
  | 0, _, _ => 0
  | n + 1, a, b => lex3 (fun a b : Bytes => sign3 (a.headD 0).toNat (b.headD 0).toNat)
      (fun a b => memcmp n a.tail b.tail) a b

/-- `ix_compare` of one column, which is also how `AbstractExecutor::compare` computes its `cmp`. -/
def compareCol (type : ColType) (len : ℕ) (a b : Bytes) : ℤ :=
  match type with
  | .int => sign3 (leInt 4 a) (leInt 4 b)
  | .float => compareFloat a b
  | .bigint | .datetime => sign3 (leInt 8 a) (leInt 8 b)
  | .string => memcmp len a b

/-- `ix_compare` of composite keys: column after column, at the running offset. -/
def ixCompare : List (ColType × ℕ) → Bytes → Bytes → ℤ
  | [], _, _ => 0
  | (type, len) :: cols, a, b =>
    if compareCol type len a b ≠ 0 then compareCol type len a b
    else ixCompare cols (a.drop len) (b.drop len)

/-! ### The comparison is an order -/

theorem threeWay_memcmp (n : ℕ) : ThreeWay (memcmp n) := by
  induction n with
  | zero => exact ThreeWay.const_zero
  | succ n ih =>
    exact ThreeWay.lex (ThreeWay.of_sign3.comap fun bs : Bytes => (bs.headD 0).toNat) (ih.comap List.tail)

/-- A column without `FLOAT` is ordered by its comparison. -/
theorem threeWay_compareCol {type : ColType} (h : type ≠ .float) (len : ℕ) :
    ThreeWay (compareCol type len) := by
  cases type with
  | int => exact ThreeWay.of_sign3.comap (leInt 4)
  | float => exact absurd rfl h
  | string => exact threeWay_memcmp len
  | bigint => exact ThreeWay.of_sign3.comap (leInt 8)
  | datetime => exact ThreeWay.of_sign3.comap (leInt 8)

theorem threeWay_ixCompare {cols : List (ColType × ℕ)} (h : ∀ c ∈ cols, c.1 ≠ .float) :
    ThreeWay (ixCompare cols) := by
  induction cols with
  | nil => exact ThreeWay.const_zero
  | cons c cols ih =>
    have hc := threeWay_compareCol (h c List.mem_cons_self) c.2
    have ih := ih fun c hc => h c (List.mem_cons_of_mem _ hc)
    exact hc.lex (ih.comap (List.drop c.2))

/-! ### The comparison tells keys apart -/

theorem sign3_eq_zero {α : Type} [LinearOrder α] {a b : α} : sign3 a b = 0 ↔ a = b := by
  unfold sign3
  rcases lt_trichotomy a b with h | h | h
  · simp [h, h.ne]
  · simp [h]
  · simp [h, h.ne', h.not_gt]

theorem leNat_lt (w : ℕ) (bs : Bytes) : leNat w bs < 2 ^ (8 * w) := by
  induction w generalizing bs with
  | zero => simp [leNat]
  | succ w ih =>
    have h1 := ih bs.tail
    have h2 := (bs.headD 0).toNat_lt
    rw [leNat, show 8 * (w + 1) = 8 * w + 8 by omega, Nat.pow_add]
    omega

theorem leNat_inj {w : ℕ} {a b : Bytes} (ha : w ≤ a.length) (hb : w ≤ b.length)
    (h : leNat w a = leNat w b) : a.take w = b.take w := by
  induction w generalizing a b with
  | zero => simp
  | succ w ih =>
    match a, b, ha, hb with
    | x :: a, y :: b, ha, hb =>
      simp only [leNat, List.headD_cons, List.tail_cons] at h
      have hx := x.toNat_lt
      have hy := y.toNat_lt
      have hxy : x.toNat = y.toNat := by omega
      rw [List.take_succ_cons, List.take_succ_cons, UInt8.toNat_inj.mp hxy,
        ih (Nat.le_of_succ_le_succ ha) (Nat.le_of_succ_le_succ hb) (by omega)]

theorem leInt_inj {w : ℕ} {a b : Bytes} (ha : w ≤ a.length) (hb : w ≤ b.length)
    (h : leInt w a = leInt w b) : a.take w = b.take w := by
  have h1 := leNat_lt w a
  have h2 := leNat_lt w b
  refine leNat_inj ha hb ?_
  unfold leInt at h
  have h3 : ((2 ^ (8 * w) : ℕ) : ℤ) = 2 ^ (8 * w) := by push_cast; rfl
  split_ifs at h <;> omega

theorem memcmp_eq_zero {n : ℕ} {a b : Bytes} (ha : n ≤ a.length) (hb : n ≤ b.length)
    (h : memcmp n a b = 0) : a.take n = b.take n := by
  induction n generalizing a b with
  | zero => simp
  | succ n ih =>
    match a, b, ha, hb with
    | x :: a, y :: b, ha, hb =>
      simp only [memcmp, lex3, List.headD_cons, List.tail_cons] at h
      by_cases hxy : sign3 x.toNat y.toNat = 0
      · simp only [hxy, ne_eq, not_true_eq_false, if_false] at h
        rw [List.take_succ_cons, List.take_succ_cons, UInt8.toNat_inj.mp (sign3_eq_zero.mp hxy),
          ih (Nat.le_of_succ_le_succ ha) (Nat.le_of_succ_le_succ hb) h]
      · simp [hxy] at h

/-! ### The bytes that are compared -/

theorem memcmp_succ (n : ℕ) (a b : Bytes) : memcmp (n + 1) a b =
    if sign3 (a.headD 0).toNat (b.headD 0).toNat ≠ 0 then sign3 (a.headD 0).toNat (b.headD 0).toNat
    else memcmp n a.tail b.tail := rfl

theorem getD_zero (a : Bytes) : a.getD 0 0 = a.headD 0 := by cases a <;> rfl

theorem getD_succ (a : Bytes) (i : ℕ) : a.getD (i + 1) 0 = a.tail.getD i 0 := by cases a <;> rfl

/-- `memcmp` returns 0 when the bytes are the same. -/
theorem memcmp_eq_zero_iff {n : ℕ} {a b : Bytes} : memcmp n a b = 0 ↔ ∀ i < n, a.getD i 0 = b.getD i 0 := by
  induction n generalizing a b with
  | zero => exact iff_of_true rfl fun i hi => absurd hi (Nat.not_lt_zero i)
  | succ n ih =>
    have hhead : sign3 (a.headD 0).toNat (b.headD 0).toNat = 0 ↔ a.getD 0 0 = b.getD 0 0 := by
      rw [sign3_eq_zero, UInt8.toNat_inj, getD_zero, getD_zero]
    rw [memcmp_succ, Nat.forall_lt_succ_left, ← hhead]
    simp only [getD_succ, ← ih]
    by_cases h : sign3 (a.headD 0).toNat (b.headD 0).toNat = 0
    · rw [if_neg (not_not.mpr h)]
      exact (and_iff_right h).symm
    · rw [if_pos h]
      exact iff_of_false h fun hand => h hand.1

/-- `memcmp` depends on the bytes that it compares. -/
theorem memcmp_congr {n : ℕ} {a b a' b' : Bytes} (ha : ∀ i < n, a.getD i 0 = a'.getD i 0)
    (hb : ∀ i < n, b.getD i 0 = b'.getD i 0) : memcmp n a b = memcmp n a' b' := by
  induction n generalizing a b a' b' with
  | zero => rfl
  | succ n ih =>
    rw [Nat.forall_lt_succ_left] at ha hb
    simp only [getD_succ] at ha hb
    rw [memcmp_succ, memcmp_succ, ← getD_zero, ← getD_zero, ← getD_zero, ← getD_zero, ha.1, hb.1, ih ha.2 hb.2]

theorem leNat_congr {w : ℕ} {a b : Bytes} (h : ∀ i < w, a.getD i 0 = b.getD i 0) : leNat w a = leNat w b := by
  induction w generalizing a b with
  | zero => rfl
  | succ w ih =>
    rw [Nat.forall_lt_succ_left] at h
    simp only [getD_succ] at h
    rw [leNat, leNat, ← getD_zero, ← getD_zero, h.1, ih h.2]

theorem leInt_congr {w : ℕ} {a b : Bytes} (h : ∀ i < w, a.getD i 0 = b.getD i 0) : leInt w a = leInt w b := by
  rw [leInt, leInt, leNat_congr h]

/-- A key column: `INT` has 4 bytes, `BIGINT` and `DATETIME` 8, `CHAR` any number, and
`FLOAT` is left out. -/
def KeyCol (c : ColType × ℕ) : Prop :=
  match c.1 with
  | .int => c.2 = 4
  | .float => False
  | .string => True
  | .bigint | .datetime => c.2 = 8

instance (c : ColType × ℕ) : Decidable (KeyCol c) := by
  unfold KeyCol
  cases c.1 <;> infer_instance

theorem KeyCol.ne_float {c : ColType × ℕ} (h : KeyCol c) : c.1 ≠ .float := by
  intro hf
  simp [KeyCol, hf] at h

theorem KeyCol.take_eq {c : ColType × ℕ} (hc : KeyCol c) {a b : Bytes} (ha : c.2 ≤ a.length)
    (hb : c.2 ≤ b.length) (h : compareCol c.1 c.2 a b = 0) : a.take c.2 = b.take c.2 := by
  obtain ⟨type, len⟩ := c
  cases type with
  | int => cases hc; exact leInt_inj ha hb (sign3_eq_zero.mp h)
  | float => exact hc.elim
  | string => exact memcmp_eq_zero ha hb h
  | bigint => cases hc; exact leInt_inj ha hb (sign3_eq_zero.mp h)
  | datetime => cases hc; exact leInt_inj ha hb (sign3_eq_zero.mp h)

/-- A column is compared by its own bytes. -/
theorem compareCol_congr {c : ColType × ℕ} (hc : KeyCol c) {a b a' b' : Bytes} (ha : ∀ i < c.2, a.getD i 0 = a'.getD i 0)
    (hb : ∀ i < c.2, b.getD i 0 = b'.getD i 0) : compareCol c.1 c.2 a b = compareCol c.1 c.2 a' b' := by
  obtain ⟨type, len⟩ := c
  cases type with
  | int => cases hc; rw [compareCol, compareCol, leInt_congr ha, leInt_congr hb]
  | float => exact hc.elim
  | string => exact memcmp_congr ha hb
  | bigint => cases hc; rw [compareCol, compareCol, leInt_congr ha, leInt_congr hb]
  | datetime => cases hc; rw [compareCol, compareCol, leInt_congr ha, leInt_congr hb]

/-- The total length of a key. -/
def colTotLen (cols : List (ColType × ℕ)) : ℕ := (cols.map (·.2)).sum

theorem ixCompare_eq_zero {cols : List (ColType × ℕ)} (hcols : ∀ c ∈ cols, KeyCol c) {a b : Bytes}
    (ha : a.length = colTotLen cols) (hb : b.length = colTotLen cols) (h : ixCompare cols a b = 0) :
    a = b := by
  induction cols generalizing a b with
  | nil =>
    simp only [colTotLen, List.map_nil, List.sum_nil, List.length_eq_zero_iff] at ha hb
    rw [ha, hb]
  | cons c cols ih =>
    have hlen : colTotLen (c :: cols) = c.2 + colTotLen cols := by simp [colTotLen]
    rw [hlen] at ha hb
    simp only [ixCompare] at h
    by_cases h0 : compareCol c.1 c.2 a b = 0
    · simp only [h0, ne_eq, not_true_eq_false, if_false] at h
      have htake := (hcols c List.mem_cons_self).take_eq (by omega) (by omega) h0
      have hdrop := ih (fun c hc => hcols c (List.mem_cons_of_mem _ hc))
        (by rw [List.length_drop]; omega) (by rw [List.length_drop]; omega) h
      rw [← List.take_append_drop c.2 a, ← List.take_append_drop c.2 b, htake, hdrop]
    · simp [h0] at h

/-! ### Keys -/

/-- The columns of an index: well formed and without `FLOAT`. -/
structure KeyCols where
  /-- The types and lengths. -/
  cols : List (ColType × ℕ)
  /-- Every column is a key column. -/
  ok : ∀ c ∈ cols, KeyCol c

/-- A key of an index: as many bytes as its columns have. -/
def Key (kc : KeyCols) : Type := { bs : Bytes // bs.length = colTotLen kc.cols }

namespace Key

variable {kc : KeyCols}

/-- `ix_compare` on the keys of an index is an order. -/
theorem threeWay (kc : KeyCols) : ThreeWay fun a b : Key kc => ixCompare kc.cols a.1 b.1 :=
  (threeWay_ixCompare fun c hc => (kc.ok c hc).ne_float).comap Subtype.val

/-- The keys of an index are linearly ordered: `a < b` is `ix_compare(a, b) < 0`, `a ≤ b` is
`ix_compare(a, b) <= 0`, and `ix_compare(a, b) == 0` only for identical bytes. -/
instance instLinearOrder : LinearOrder (Key kc) :=
  (threeWay kc).linearOrder fun a b h => Subtype.ext (ixCompare_eq_zero kc.ok a.2 b.2 h)

theorem lt_iff (a b : Key kc) : a < b ↔ ixCompare kc.cols a.1 b.1 < 0 := Iff.rfl

theorem le_iff (a b : Key kc) : a ≤ b ↔ ixCompare kc.cols a.1 b.1 ≤ 0 := Iff.rfl

/-- A key of zeros. -/
instance : Inhabited (Key kc) := ⟨⟨List.replicate _ 0, List.length_replicate⟩⟩

theorem eq_iff (a b : Key kc) : a = b ↔ ixCompare kc.cols a.1 b.1 = 0 :=
  ⟨fun h => h ▸ (threeWay kc).self a, fun h => Subtype.ext (ixCompare_eq_zero kc.ok a.2 b.2 h)⟩

end Key

end Rmdb
