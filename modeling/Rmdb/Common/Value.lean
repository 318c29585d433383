import Rmdb.System.Meta

/-!
# Values and conditions

A literal of a statement is a `Value`. `coerce_value_type` turns it into one of a
column's type, and `init_raw` writes the bytes that are stored in a record and compared
with one. A `Condition` compares a column with a value or with another column.
-/

namespace Rmdb

/-! ### Writing numbers -/

/-- The `w` bytes of a number, little-endian and cut off at `2 ^ (8 * w)`. -/
def leBytes : ℕ → ℕ → Bytes
  | 0, _ => []
  | w + 1, n => UInt8.ofNat (n % 256) :: leBytes w (n / 256)

theorem length_leBytes (w n : ℕ) : (leBytes w n).length = w := by
  induction w generalizing n with
  | zero => rfl
  | succ w ih => simp [leBytes, ih]

/-- The `w` bytes of an integer in two's complement. -/
def intBytes (w : ℕ) (v : ℤ) : Bytes := leBytes w (v % 2 ^ (8 * w)).toNat

/-- `static_cast<float>` of an integer: the bit pattern of the nearest single, ties to even. -/
def floatOfInt (v : ℤ) : ℕ :=
  if v = 0 then 0
  else
    let m := v.natAbs
    let e := Nat.log2 m
    let mantissa :=
      if e ≤ 23 then m * 2 ^ (23 - e)
      else
        let q := m / 2 ^ (e - 23)
        let r := m % 2 ^ (e - 23)
        let half := 2 ^ (e - 24)
        if half < r ∨ (r = half ∧ q % 2 = 1) then q + 1 else q
    (if v < 0 then 0x80000000 else 0) + (e + 127) * 0x800000 + (mantissa - 0x800000)

/-! ### Dates -/

/-- `is_leap_year`. -/
def isLeapYear (year : ℤ) : Bool := (year % 4 = 0 && year % 100 ≠ 0) || year % 400 = 0

/-- `days_in_month`. -/
def daysInMonth (year month : ℤ) : ℤ :=
  if month = 2 then (if isLeapYear year then 29 else 28)
  else if month = 4 ∨ month = 6 ∨ month = 9 ∨ month = 11 then 30
  else 31

/-- The lambda `parse_component`: the number in `len` digits, or `-1`. -/
def parseComponent (value : Bytes) (pos len : ℕ) : ℤ :=
  ((value.drop pos).take len).foldl
    (fun result ch => if result < 0 ∨ ch.toNat < 48 ∨ 57 < ch.toNat then -1 else result * 10 + (ch.toNat - 48)) 0

/-- `parse_datetime_string`: the encoded date of `YYYY-MM-DD HH:MM:SS`. -/
def parseDatetimeString (value : Bytes) : Option ℤ :=
  if value.length ≠ 19 ∨ value[4]? ≠ some 45 ∨ value[7]? ≠ some 45 ∨ value[10]? ≠ some 32 ∨ value[13]? ≠ some 58 ∨
      value[16]? ≠ some 58 then none
  else
    let year := parseComponent value 0 4
    let month := parseComponent value 5 2
    let day := parseComponent value 8 2
    let hour := parseComponent value 11 2
    let minute := parseComponent value 14 2
    let second := parseComponent value 17 2
    if year < 1000 ∨ 9999 < year ∨ month < 1 ∨ 12 < month ∨ day < 1 ∨ hour < 0 ∨ 23 < hour ∨ minute < 0 ∨ 59 < minute ∨
        second < 0 ∨ 59 < second then none
    else if daysInMonth year month < day then none
    else some (year * 10000000000 + month * 100000000 + day * 1000000 + hour * 10000 + minute * 100 + second)

/-! ### Values -/

/-- What a `Value` holds: its `type` and the member of the union, or the string, that goes with it. -/
inductive Lit where
  /-- `TYPE_INT` with `int_val`. -/
  | int (v : ℤ)
  /-- `TYPE_FLOAT` with `float_val`, as a bit pattern. -/
  | float (bits : ℕ)
  /-- `TYPE_BIGINT` with `bigint_val`. -/
  | bigint (v : ℤ)
  /-- `TYPE_DATETIME` with `bigint_val`. -/
  | datetime (v : ℤ)
  /-- `TYPE_STRING` with `str_val`. -/
  | str (s : Bytes)
deriving DecidableEq

/-- `Value`. -/
structure Value where
  /-- The type and the content. -/
  lit : Lit
  /-- `raw`. -/
  raw : Option Bytes
deriving DecidableEq

namespace Value

/-- `type`. -/
def type (v : Value) : ColType :=
  match v.lit with
  | .int _ => .int
  | .float _ => .float
  | .bigint _ => .bigint
  | .datetime _ => .datetime
  | .str _ => .string

/-- `init_raw`: the bytes of the value in a column of `len` bytes. -/
def initRaw (v : Value) (len : ℕ) : Except RMDBError Value :=
  if v.raw.isSome then .error .assertion
  else
    match v.lit with
    | .int i => if len = 4 then .ok { v with raw := some (intBytes 4 i) } else .error .assertion
    | .float bits => if len = 4 then .ok { v with raw := some (leBytes 4 bits) } else .error .assertion
    | .bigint i | .datetime i => if len = 8 then .ok { v with raw := some (intBytes 8 i) } else .error .assertion
    | .str s =>
      if len < s.length then .error .stringOverflow
      else .ok { v with raw := some (s ++ List.replicate (len - s.length) 0) }

/-- `coerce_value_type`. -/
def coerceValueType (v : Value) (targetType : ColType) (len : ℕ) : Except RMDBError Value :=
  match targetType, v.lit with
  | .int, .int _ | .float, .float _ | .bigint, .bigint _ | .datetime, .datetime _ => .ok v
  | .string, .str s => if len < s.length then .error .stringOverflow else .ok v
  | .int, .bigint i =>
    if i < -2147483648 ∨ 2147483647 < i then .error (.valueOutOfRange .int i) else .ok { v with lit := .int i }
  | .float, .int i | .float, .bigint i => .ok { v with lit := .float (floatOfInt i) }
  | .bigint, .int i => .ok { v with lit := .bigint i }
  | .datetime, .str s =>
    match parseDatetimeString s with
    | some encoded => .ok { v with lit := .datetime encoded }
    | none => .error (.invalidDateTime s)
  | _, _ => .error (.incompatibleType targetType v.type)

end Value

/-! ### Conditions -/

/-- `TabCol`. -/
structure TabCol where
  /-- `tab_name`. -/
  tabName : String
  /-- `col_name`. -/
  colName : String
deriving DecidableEq

/-- `CompOp`. -/
inductive CompOp where
  /-- `OP_EQ`. -/
  | eq
  /-- `OP_NE`. -/
  | ne
  /-- `OP_LT`. -/
  | lt
  /-- `OP_GT`. -/
  | gt
  /-- `OP_LE`. -/
  | le
  /-- `OP_GE`. -/
  | ge
deriving DecidableEq

namespace CompOp

/-- The `switch` of `AbstractExecutor::compare`: does the operator accept this result of a comparison? -/
def holds (op : CompOp) (cmp : ℤ) : Bool :=
  match op with
  | eq => cmp = 0
  | ne => cmp ≠ 0
  | lt => cmp < 0
  | gt => 0 < cmp
  | le => cmp ≤ 0
  | ge => 0 ≤ cmp

/-- The map `swap_op`: the operator with its sides exchanged. -/
def swapOp : CompOp → CompOp
  | eq => eq
  | ne => ne
  | lt => gt
  | gt => lt
  | le => ge
  | ge => le

end CompOp

/-- `Condition`. -/
structure Condition where
  /-- `lhs_col`. -/
  lhsCol : TabCol
  /-- `op`. -/
  op : CompOp
  /-- `is_rhs_val`. -/
  isRhsVal : Bool
  /-- `rhs_col`; empty names when the right-hand side is a value. -/
  rhsCol : TabCol
  /-- `rhs_val`. -/
  rhsVal : Value
deriving DecidableEq

/-- `std::swap(cond.lhs_col, cond.rhs_col); cond.op = swap_op.at(cond.op)`. -/
def Condition.swapped (cond : Condition) : Condition :=
  { cond with lhsCol := cond.rhsCol, rhsCol := cond.lhsCol, op := cond.op.swapOp }

end Rmdb
