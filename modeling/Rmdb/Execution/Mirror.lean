import Rmdb.Execution.Join

/-!
# Conditions on two columns

A comparison of two columns is turned around in several places: by `push_conds` and `make_one_rel`
when the tables are joined in the other order, and by `IndexScanExecutor`. `swapped` exchanges the
columns and mirrors the operator. `AbstractExecutor::compare` takes the number of bytes that it
compares from the column on the left, so the two conditions agree, and agree with the comparison of
the strings, if and only if the columns are not of type `CHAR` or have the same length
(`mirrored_iff`).

A row is followed by other memory, which a comparison over too many bytes reads: a row is given as
the bytes from its first one on, and there may be more of them than its columns have.
-/

namespace Rmdb.Execution

open Lib

/-- Where the columns of a condition are looked up. -/
inductive Evaluator where
  /-- `eval_cond`: in a row. -/
  | scan (cols : List ColMeta)
  /-- `eval_join_cond`: in a row of the left child, and then in a row of the right child. -/
  | join (leftCols rightCols : List ColMeta)

/-- A column that has been looked up. -/
structure Operand where
  /-- Is it a column of the right child? -/
  onRight : Bool
  /-- The column. -/
  col : ColMeta

namespace Evaluator

/-- The condition on a pair of rows; a scan has one row only. -/
def eval : Evaluator → Bytes × Bytes → Condition → Except RMDBError Bool
  | scan cols, rows, cond => evalCond cols rows.1 cond
  | join leftCols rightCols, rows, cond => evalJoinCond leftCols rightCols rows.1 rows.2 cond

/-- The column that is found under a name. -/
def find : Evaluator → TabCol → Option Operand
  | scan cols, target => (cols.find? (isTarget target)).map (⟨false, ·⟩)
  | join leftCols rightCols, target =>
    match leftCols.find? (isTarget target) with
    | some col => some ⟨false, col⟩
    | none => (rightCols.find? (isTarget target)).map (⟨true, ·⟩)

end Evaluator

namespace Operand

variable (x : Operand) (rows : Bytes × Bytes)

/-- The row that the column is in. -/
def row : Bytes := if x.onRight then rows.2 else rows.1

/-- The bytes from the column on. -/
def ptr : Bytes := (x.row rows).drop x.col.offset

/-- The bytes of the column. -/
def bytes : Bytes := (x.ptr rows).take x.col.len

/-- The row is long enough for the column. -/
def Fits : Prop := x.col.offset + x.col.len ≤ (x.row rows).length

/-- Two columns of one row are the same column, or have no byte in common. -/
def Apart (y : Operand) : Prop := x.onRight = y.onRight →
  x.col = y.col ∨ x.col.offset + x.col.len ≤ y.col.offset ∨ y.col.offset + y.col.len ≤ x.col.offset

end Operand

/-- A string with zeros behind it. -/
def zeroPadded (n : ℕ) (bs : Bytes) : Bytes := bs ++ List.replicate (n - bs.length) 0

section Evaluate

variable {ev : Evaluator} {lhs rhs : TabCol} {l r : Operand}

theorem getCol_of_find {cols : List ColMeta} {target : TabCol} {col : ColMeta} (h : cols.find? (isTarget target) = some col) :
    getCol cols target = .ok col := by
  have h' : (cols.find? fun col => decide (col.tabName = target.tabName ∧ col.name = target.colName)) = some col := h
  rw [getCol, h']

theorem joinOperand_eq {leftCols rightCols : List ColMeta} {target : TabCol} {x : Operand}
    (h : (Evaluator.join leftCols rightCols).find target = some x) (rows : Bytes × Bytes) :
    joinOperand leftCols rightCols rows.1 rows.2 target = .ok (x.col, x.ptr rows) := by
  rw [Evaluator.find] at h
  rw [joinOperand]
  rcases hleft : leftCols.find? (isTarget target) with _ | col
  · rcases hright : rightCols.find? (isTarget target) with _ | col
    · rw [hleft, hright] at h
      cases h
    · rw [hleft, hright] at h
      cases h
      rfl
  · rw [hleft] at h
    cases h
    rfl

/-- What both evaluators do with a comparison of two columns of one type. -/
theorem Evaluator.eval_eq (hl : ev.find lhs = some l) (hr : ev.find rhs = some r) (htype : l.col.type = r.col.type)
    (rows : Bytes × Bytes) (op : CompOp) (val : Value) :
    ev.eval rows ⟨lhs, op, false, rhs, val⟩ = .ok (compare (l.ptr rows) (r.ptr rows) l.col.type l.col.len op) := by
  cases ev with
  | scan cols =>
    obtain ⟨lc, hlc, rfl⟩ := Option.map_eq_some_iff.mp hl
    obtain ⟨rc, hrc, rfl⟩ := Option.map_eq_some_iff.mp hr
    simp only [eval, evalCond, rhsOf, getCol_of_find hlc, getCol_of_find hrc, bind, Except.bind, Bool.false_eq_true, if_false]
    rw [if_neg (not_not.mpr htype)]
    rfl
  | join leftCols rightCols =>
    simp only [eval, evalJoinCond, joinOperand_eq hl, joinOperand_eq hr, bind, Except.bind, Bool.false_eq_true, if_false]
    rw [if_neg (not_not.mpr htype)]

end Evaluate

/-! ### Strings with zeros behind them -/

theorem getD_zeroPadded (n : ℕ) (a : Bytes) (i : ℕ) : (zeroPadded n a).getD i 0 = a.getD i 0 := by
  rw [zeroPadded, List.getD_eq_getElem?_getD, List.getD_eq_getElem?_getD, List.getElem?_append, List.getElem?_replicate]
  split
  · rfl
  · rename_i hi
    rw [List.getElem?_eq_none (Nat.not_lt.mp hi)]
    split <;> rfl

theorem getD_bytes (x : Operand) (rows : Bytes × Bytes) (i : ℕ) :
    (x.bytes rows).getD i 0 = if i < x.col.len then (x.ptr rows).getD i 0 else 0 := by
  rw [Operand.bytes, List.getD_eq_getElem?_getD, List.getElem?_take]
  split
  · rw [List.getD_eq_getElem?_getD]
  · rfl

/-! ### When the two conditions agree -/

/-- The condition and the condition turned around have one truth value, which for strings is that of the comparison of the
strings with zeros behind the shorter one. -/
def Mirrored (ev : Evaluator) (l r : Operand) (rows : Bytes × Bytes) (cond : Condition) : Prop :=
  ∃ b, ev.eval rows cond = .ok b ∧ ev.eval rows cond.swapped = .ok b ∧
    (l.col.type = .string →
      b = cond.op.holds (memcmp (max l.col.len r.col.len) (zeroPadded (max l.col.len r.col.len) (l.bytes rows))
        (zeroPadded (max l.col.len r.col.len) (r.bytes rows))))

theorem holds_swapOp (op : CompOp) (c : ℤ) : op.swapOp.holds (-c) = op.holds c := by
  cases op <;> simp [CompOp.swapOp, CompOp.holds]

section Mirror

variable {ev : Evaluator} {lhs rhs : TabCol} {l r : Operand}

/-- Over the same number of bytes the two comparisons have opposite results. -/
theorem compare_swap {type : ColType} (hfloat : type ≠ .float) {len len' : ℕ} (hlen : type = .string → len = len')
    (a b : Bytes) (op : CompOp) : compare b a type len' op.swapOp = compare a b type len op := by
  have hneg : compareCol type len' b a = -compareCol type len a b := by
    rw [← (threeWay_compareCol hfloat len).neg]
    cases type with
    | string => rw [hlen rfl]
    | float => exact absurd rfl hfloat
    | int | bigint | datetime => rfl
  rw [compare, compare, hneg, holds_swapOp]

theorem mirrored_of_len (hl : ev.find lhs = some l) (hr : ev.find rhs = some r) (htype : l.col.type = r.col.type)
    (hfloat : l.col.type ≠ .float) (hlen : l.col.type = .string → l.col.len = r.col.len) (rows : Bytes × Bytes) (op : CompOp)
    (val : Value) : Mirrored ev l r rows ⟨lhs, op, false, rhs, val⟩ := by
  refine ⟨_, Evaluator.eval_eq hl hr htype rows op val, ?_, ?_⟩
  · rw [Condition.swapped, Evaluator.eval_eq hr hl htype.symm, ← htype, compare_swap hfloat hlen]
  · intro hstring
    rw [compare, hstring, ← hlen hstring, max_self, compareCol]
    congr 1
    refine memcmp_congr ?_ ?_
    · intro i hi
      rw [getD_zeroPadded, getD_bytes, if_pos hi]
    · intro i hi
      rw [getD_zeroPadded, getD_bytes, if_pos (hlen hstring ▸ hi)]

/-- A row of zeros, with ones from a byte on to another one. -/
def onesRow (len first last : ℕ) : Bytes := (List.range len).map fun i => if first ≤ i ∧ i < last then 1 else 0

theorem getD_onesRow {len first last i : ℕ} (hi : i < len) :
    (onesRow len first last).getD i 0 = if first ≤ i ∧ i < last then 1 else 0 := by
  rw [onesRow, List.getD_eq_getElem?_getD, List.getElem?_map, List.getElem?_range hi]
  rfl

theorem getD_ptr (x : Operand) (rows : Bytes × Bytes) (i : ℕ) : (x.ptr rows).getD i 0 = (x.row rows).getD (x.col.offset + i) 0 := by
  rw [Operand.ptr, List.getD_eq_getElem?_getD, List.getD_eq_getElem?_getD, List.getElem?_drop]

/-- A string of zeros, and a longer one with ones behind as many zeros. -/
theorem exists_rows {x y : Operand} (hapart : x.Apart y) (hlen : x.col.len < y.col.len) :
    ∃ rows, x.Fits rows ∧ y.Fits rows ∧ (∀ i < x.col.len, (x.ptr rows).getD i 0 = (y.ptr rows).getD i 0) ∧
      (x.bytes rows).getD x.col.len 0 ≠ (y.bytes rows).getD x.col.len 0 := by
  let len := x.col.offset + x.col.len + y.col.offset + y.col.len
  let ones := onesRow len (y.col.offset + x.col.len) (y.col.offset + y.col.len)
  let zeros := onesRow len 0 0
  let rows : Bytes × Bytes := if y.onRight then (zeros, ones) else (ones, zeros)
  have hy : y.row rows = ones := by
    simp only [Operand.row, rows]
    cases y.onRight <;> rfl
  have hx : x.row rows = if x.onRight = y.onRight then ones else zeros := by
    simp only [Operand.row, rows]
    cases x.onRight <;> cases y.onRight <;> rfl
  have hlenOf : ∀ first last, (onesRow len first last).length = len := fun first last => by
    rw [onesRow, List.length_map, List.length_range]
  have hzero : ∀ i < x.col.len, (x.ptr rows).getD i 0 = 0 := fun i hi => by
    rw [getD_ptr, hx]
    split
    · rename_i hside
      rw [getD_onesRow (by omega), if_neg]
      rcases hapart hside with heq | hbefore | hbehind
      · rw [heq] at hlen
        exact absurd hlen (lt_irrefl _)
      · omega
      · omega
    · rw [getD_onesRow (by omega), if_neg (by omega)]
  refine ⟨rows, ?_, ?_, ?_, ?_⟩
  · rw [Operand.Fits, hx]
    split
    · rw [hlenOf]
      omega
    · rw [hlenOf]
      omega
  · rw [Operand.Fits, hy, hlenOf]
    omega
  · intro i hi
    rw [hzero i hi, getD_ptr, hy, getD_onesRow (by omega), if_neg (by omega)]
  · rw [getD_bytes, getD_bytes, if_neg (lt_irrefl _), if_pos hlen, getD_ptr, hy, getD_onesRow (by omega), if_pos (by omega)]
    decide

/-- Strings that differ do so with zeros behind them. -/
theorem memcmp_zeroPadded_ne {n m i : ℕ} {a b : Bytes} (hi : i < n) (h : a.getD i 0 ≠ b.getD i 0) :
    memcmp n (zeroPadded m a) (zeroPadded m b) ≠ 0 := by
  refine fun hzero => h ?_
  have heq := memcmp_eq_zero_iff.mp hzero i hi
  rwa [getD_zeroPadded, getD_zeroPadded] at heq

/-- **When a condition can be turned around**: for every operator and all rows exactly if the columns are not of type `CHAR`
or have the same length. -/
theorem mirrored_iff (hl : ev.find lhs = some l) (hr : ev.find rhs = some r) (htype : l.col.type = r.col.type)
    (hfloat : l.col.type ≠ .float) (hapart : l.Apart r) (val : Value) :
    (∀ op rows, l.Fits rows → r.Fits rows → Mirrored ev l r rows ⟨lhs, op, false, rhs, val⟩) ↔
      (l.col.type = .string → l.col.len = r.col.len) := by
  refine ⟨?_, fun hlen op rows _ _ => mirrored_of_len hl hr htype hfloat hlen rows op val⟩
  intro hall hstring
  rcases lt_trichotomy l.col.len r.col.len with hlt | heq | hlt
  · obtain ⟨rows, hfl, hfr, hsame, hne⟩ := exists_rows hapart hlt
    obtain ⟨b, heval, -, hb⟩ := hall .eq rows hfl hfr
    rw [Evaluator.eval_eq hl hr htype, compare, hstring, compareCol, memcmp_eq_zero_iff.mpr hsame] at heval
    have hne' := memcmp_zeroPadded_ne (n := max l.col.len r.col.len) (m := max l.col.len r.col.len) (lt_max_of_lt_right hlt) hne
    cases heval
    exact absurd (of_decide_eq_true (hb hstring).symm) hne'
  · exact heq
  · obtain ⟨rows, hfr, hfl, hsame, hne⟩ := exists_rows (fun hside => (hapart hside.symm).imp Eq.symm Or.symm) hlt
    obtain ⟨b, -, heval, hb⟩ := hall .eq rows hfl hfr
    rw [Condition.swapped, Evaluator.eval_eq hr hl htype.symm, compare, ← htype, hstring, compareCol,
      memcmp_eq_zero_iff.mpr hsame] at heval
    have hne' := memcmp_zeroPadded_ne (n := max l.col.len r.col.len) (m := max l.col.len r.col.len) (lt_max_of_lt_left hlt) hne.symm
    cases heval
    exact absurd (of_decide_eq_true (hb hstring).symm) hne'

end Mirror

/-- Two `INT` columns of two tables. -/
theorem mirrored_iff_int :
    (∀ op rows, Operand.Fits ⟨false, ⟨"s", "a", .int, 4, 0⟩⟩ rows → Operand.Fits ⟨true, ⟨"t", "b", .int, 4, 0⟩⟩ rows →
      Mirrored (.join [⟨"s", "a", .int, 4, 0⟩] [⟨"t", "b", .int, 4, 0⟩]) ⟨false, ⟨"s", "a", .int, 4, 0⟩⟩
        ⟨true, ⟨"t", "b", .int, 4, 0⟩⟩ rows ⟨⟨"s", "a"⟩, op, false, ⟨"t", "b"⟩, ⟨.int 0, none⟩⟩) ↔
      (ColType.int = ColType.string → 4 = 4) :=
  mirrored_iff (l := ⟨false, ⟨"s", "a", .int, 4, 0⟩⟩) (r := ⟨true, ⟨"t", "b", .int, 4, 0⟩⟩) rfl rfl rfl (by decide)
    (fun h => absurd h (by decide)) _

/-- A column of one byte and one of two, the shorter one on the left: `a` is `a`, although the other string is `ab`. -/
theorem not_mirrored : ¬ ∀ (ev : Evaluator) (lhs rhs : TabCol) (l r : Operand), ev.find lhs = some l → ev.find rhs = some r →
    l.col.type = r.col.type → l.col.type ≠ .float → l.Apart r → ∀ op rows, l.Fits rows → r.Fits rows →
    Mirrored ev l r rows ⟨lhs, op, false, rhs, ⟨.int 0, none⟩⟩ := by
  intro hall
  obtain ⟨b, heval, -, hb⟩ := hall (.join [⟨"s", "a", .string, 1, 0⟩] [⟨"t", "b", .string, 2, 0⟩]) ⟨"s", "a"⟩ ⟨"t", "b"⟩
    ⟨false, ⟨"s", "a", .string, 1, 0⟩⟩ ⟨true, ⟨"t", "b", .string, 2, 0⟩⟩ rfl rfl rfl (by decide)
    (fun h => absurd h (by decide)) .eq ([97], [97, 98]) (le_refl 1) (le_refl 2)
  cases heval
  exact absurd (hb rfl) (by decide)

end Rmdb.Execution
