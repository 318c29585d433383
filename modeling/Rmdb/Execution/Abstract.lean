import Rmdb.Common.Value

/-!
# Evaluating conditions

`AbstractExecutor`: what all executors share. A condition names its columns by table and
column name; they are looked up among the columns of the executor's rows. The right-hand
side must have the type of the left-hand side, and the two are compared by that type and
over the length of the left-hand column.
-/

namespace Rmdb.Execution

/-- `get_col`. -/
def getCol (recCols : List ColMeta) (target : TabCol) : Except RMDBError ColMeta :=
  match recCols.find? fun col => col.tabName = target.tabName ∧ col.name = target.colName with
  | some col => .ok col
  | none => .error (.columnNotFound (target.tabName ++ "." ++ target.colName))

/-- `compare`. -/
def compare (lhs rhs : Bytes) (type : ColType) (len : ℕ) (op : CompOp) : Bool := op.holds (compareCol type len lhs rhs)

/-- The right-hand side of a condition: a pointer to its bytes, and its type. A value without `raw` is a null pointer. -/
def rhsOf (recCols : List ColMeta) (rec : Bytes) (cond : Condition) : Except RMDBError (Bytes × ColType) :=
  if cond.isRhsVal then
    match cond.rhsVal.raw with
    | some raw => .ok (raw, cond.rhsVal.type)
    | none => .error .assertion
  else do
    let rhsCol ← getCol recCols cond.rhsCol
    .ok (rec.drop rhsCol.offset, rhsCol.type)

/-- `eval_cond`. -/
def evalCond (recCols : List ColMeta) (rec : Bytes) (cond : Condition) : Except RMDBError Bool := do
  let lhsCol ← getCol recCols cond.lhsCol
  let lhs := rec.drop lhsCol.offset
  let (rhs, rhsType) ← rhsOf recCols rec cond
  if lhsCol.type ≠ rhsType then .error (.incompatibleType lhsCol.type rhsType)
  else .ok (compare lhs rhs lhsCol.type lhsCol.len cond.op)

/-- `eval_conds`. -/
def evalConds (recCols : List ColMeta) (rec : Bytes) : List Condition → Except RMDBError Bool
  | [] => .ok true
  | cond :: conds => do
    if ← evalCond recCols rec cond then evalConds recCols rec conds else .ok false

/-! ### Columns -/

theorem getCol_spec {recCols : List ColMeta} {target : TabCol} {col : ColMeta} (h : getCol recCols target = .ok col) :
    col ∈ recCols ∧ col.tabName = target.tabName ∧ col.name = target.colName := by
  unfold getCol at h
  split at h
  · next c hc =>
    cases h
    have hp := of_decide_eq_true (List.find?_some hc :)
    exact ⟨List.mem_of_find?_eq_some hc, hp.1, hp.2⟩
  · cases h

/-- Among the columns of its own table a column is found by its name. -/
theorem getCol_of_tab {recCols : List ColMeta} {target : TabCol} (h : ∀ c ∈ recCols, c.tabName = target.tabName) :
    getCol recCols target = match recCols.find? (·.name = target.colName) with
      | some col => .ok col
      | none => .error (.columnNotFound (target.tabName ++ "." ++ target.colName)) := by
  have hfind : recCols.find? (fun col => decide (col.tabName = target.tabName ∧ col.name = target.colName)) =
      recCols.find? (fun col => decide (col.name = target.colName)) := by
    induction recCols with
    | nil => rfl
    | cons c recCols ih =>
      rw [List.find?_cons, List.find?_cons, ih fun c hc => h c (List.mem_cons_of_mem _ hc), h c List.mem_cons_self]
      simp
  unfold getCol
  rw [hfind]

/-! ### Conditions that can be evaluated -/

/-- What `check_clause` leaves of a condition over the columns `recCols`: its columns are there, its two sides have one
type, and a value has as many bytes as its column. -/
structure CondOk (recCols : List ColMeta) (cond : Condition) (lhs : ColMeta) : Prop where
  found : getCol recCols cond.lhsCol = .ok lhs
  val : cond.isRhsVal = true → cond.rhsVal.type = lhs.type ∧ ∃ raw, cond.rhsVal.raw = some raw ∧ raw.length = lhs.len
  col : cond.isRhsVal = false → ∃ rhs, getCol recCols cond.rhsCol = .ok rhs ∧ rhs.type = lhs.type

/-- Does the condition evaluate to true? -/
def condHolds (recCols : List ColMeta) (rec : Bytes) (cond : Condition) : Bool :=
  match evalCond recCols rec cond with
  | .ok b => b
  | .error _ => false

theorem CondOk.evalCond_eq {recCols : List ColMeta} {cond : Condition} {lhs : ColMeta} (h : CondOk recCols cond lhs)
    (rec : Bytes) : evalCond recCols rec cond = .ok (condHolds recCols rec cond) := by
  have hok : ∃ b, evalCond recCols rec cond = .ok b := by
    unfold evalCond rhsOf
    cases hv : cond.isRhsVal with
    | true =>
      obtain ⟨htype, raw, hraw, -⟩ := h.val hv
      simp [h.found, hraw, htype, bind, Except.bind]
    | false =>
      obtain ⟨rhs, hrhs, htype⟩ := h.col hv
      simp [h.found, hrhs, htype, bind, Except.bind]
  obtain ⟨b, hb⟩ := hok
  unfold condHolds
  rw [hb]

/-- Conditions that can be evaluated are, one after the other. -/
theorem evalConds_eq {recCols : List ColMeta} {conds : List Condition} (h : ∀ c ∈ conds, ∃ lhs, CondOk recCols c lhs)
    (rec : Bytes) : evalConds recCols rec conds = .ok (conds.all (condHolds recCols rec)) := by
  induction conds with
  | nil => rfl
  | cons c conds ih =>
    obtain ⟨lhs, hc⟩ := h c List.mem_cons_self
    have ih := ih fun c hc => h c (List.mem_cons_of_mem _ hc)
    rw [evalConds, hc.evalCond_eq rec, List.all_cons]
    cases hb : condHolds recCols rec c with
    | true => simpa [bind, Except.bind] using ih
    | false => simp [bind, Except.bind]

/-- A condition on a value compares the column with the bytes of the value. -/
theorem CondOk.condHolds_val {recCols : List ColMeta} {cond : Condition} {lhs : ColMeta} (h : CondOk recCols cond lhs)
    (hv : cond.isRhsVal = true) (rec : Bytes) :
    condHolds recCols rec cond =
      cond.op.holds (compareCol lhs.type lhs.len (rec.drop lhs.offset) (cond.rhsVal.raw.getD [])) := by
  obtain ⟨htype, raw, hraw, -⟩ := h.val hv
  unfold condHolds evalCond rhsOf
  simp [h.found, hv, hraw, htype, bind, Except.bind, compare]

end Rmdb.Execution
