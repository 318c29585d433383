import Rmdb.Execution.Abstract
import Rmdb.Index.Key
import Rmdb.Index.Scan
import Rmdb.Record.Scan

/-!
# The scan executors

`SeqScanExecutor` runs over all records of a table, `IndexScanExecutor` over the entries
of an index between two keys. Both are filtering scans over a cursor (`Lib.Cursor`): the
loop of `beginTuple` and `nextTuple` reads the record under the cursor's rid and stops at
the first one that satisfies the conditions. An execution of the executor, `beginTuple`
and then `nextTuple` until `is_end`, returns the rids it stops at.

The keys of an index scan are put together column by column. As long as there is an
equality for a column, both keys take its value; the first column without one takes the
values of a lower and an upper bound where there are such conditions, and the columns
behind it run from the smallest to the largest value of their type. Of several conditions
of a kind the last one counts.
-/

namespace Rmdb.Execution

open Lib Index Record

/-- What both executors do with a rid: `eval_conds(cols_, get_record(rid), fed_conds_)`. -/
def testRid (f : RmFileHandle) (cols : List ColMeta) (conds : List Condition) (rid : Rid) : Except RMDBError Bool := do
  let rec ← (f.getRecord rid).mapError .record
  evalConds cols rec conds

/-! ### `SeqScanExecutor` -/

/-- The rids that an execution of `SeqScanExecutor` returns. -/
def seqScan (tab : TabMeta) (f : RmFileHandle) (conds : List Condition) : Except RMDBError (List Rid) := do
  let rid ← f.scanBegin.mapError .record
  (f.rmScan.mapError .record).iterate .assertion (testRid f tab.cols conds)
    (f.numPages.toNat * f.numRecordsPerPage + 1) rid

/-! ### `IndexScanExecutor` -/

/-- The loop over `conds_` in the constructor: the left-hand side is to be a column of the table. -/
def feedConds (tabName : String) (conds : List Condition) : Except RMDBError (List Condition) :=
  conds.mapM fun cond =>
    if cond.lhsCol.tabName ≠ tabName then
      if cond.isRhsVal = false ∧ cond.rhsCol.tabName = tabName then .ok cond.swapped else .error .assertion
    else .ok cond

/-- Conditions whose left-hand side is on the table are taken as they are. -/
theorem feedConds_of_lhs {tabName : String} {conds : List Condition} (h : ∀ c ∈ conds, c.lhsCol.tabName = tabName) :
    feedConds tabName conds = .ok conds := by
  unfold feedConds
  induction conds with
  | nil => rfl
  | cons c conds ih =>
    have ih := ih fun c hc => h c (List.mem_cons_of_mem _ hc)
    rw [List.mapM_cons, ih, if_neg (not_not.mpr (h c List.mem_cons_self))]
    rfl

/-- `fill_min`. -/
def fillMin (col : ColMeta) : Bytes :=
  match col.type with
  | .int => intBytes 4 (-2147483648)
  | .float => leBytes 4 0xff7fffff
  | .bigint | .datetime => intBytes 8 (-9223372036854775808)
  | .string => List.replicate col.len 0

/-- `fill_max`. -/
def fillMax (col : ColMeta) : Bytes :=
  match col.type with
  | .int => intBytes 4 2147483647
  | .float => leBytes 4 0x7f7fffff
  | .bigint | .datetime => intBytes 8 9223372036854775807
  | .string => List.replicate col.len 255

/-- The conditions on a column that the scan keys are made of. -/
structure Bounds where
  /-- `eq`: the last equality. -/
  eq : Option Condition
  /-- `lower`: the last `>` or `>=`. -/
  lower : Option Condition
  /-- `upper`: the last `<` or `<=`. -/
  upper : Option Condition

/-- One round of the loop over `fed_conds_` in `beginTuple`. -/
def pickCond (colName : String) (b : Bounds) (cond : Condition) : Bounds :=
  if !cond.isRhsVal || cond.lhsCol.colName ≠ colName then b
  else
    match cond.op with
    | .eq => { b with eq := some cond }
    | .gt | .ge => { b with lower := some cond }
    | .lt | .le => { b with upper := some cond }
    | .ne => b

/-- The loop over `fed_conds_` in `beginTuple`. -/
def pickConds (conds : List Condition) (colName : String) : Bounds :=
  conds.foldl (pickCond colName) ⟨none, none, none⟩

/-- What `memcpy(.., cond->rhs_val.raw->data, idx_col.len)` copies. -/
def rawOf (col : ColMeta) (cond : Condition) : Bytes := (cond.rhsVal.raw.getD []).take col.len

/-- The bytes of a bound, or the given ones where there is no condition. -/
def rawOr (col : ColMeta) (cond : Option Condition) (fill : Bytes) : Bytes := (cond.map (rawOf col)).getD fill

/-- `lower_key` and `upper_key`, with `stop_prefix`. -/
def scanKeys (conds : List Condition) : Bool → List ColMeta → Bytes × Bytes
  | _, [] => ([], [])
  | true, col :: cols =>
    let keys := scanKeys conds true cols
    (fillMin col ++ keys.1, fillMax col ++ keys.2)
  | false, col :: cols =>
    let b := pickConds conds col.name
    match b.eq with
    | some eq =>
      let keys := scanKeys conds false cols
      (rawOf col eq ++ keys.1, rawOf col eq ++ keys.2)
    | none =>
      let keys := scanKeys conds true cols
      (rawOr col b.lower (fillMin col) ++ keys.1, rawOr col b.upper (fillMax col) ++ keys.2)

/-- The rids that an execution of `IndexScanExecutor` returns. The handles of the table's indexes are given. -/
def indexScan (tab : TabMeta) (f : RmFileHandle) (ihs : IndexMeta → IxIndexHandle (List ℤ)) (conds : List Condition)
    (indexColNames : List String) : Except RMDBError (List Rid) := do
  let index ← tab.getIndexMeta indexColNames
  let ih := ihs index
  let conds ← feedConds tab.name conds
  let keys := scanKeys conds false index.cols
  match ih.lowerBound (keyVal index.shape keys.1), ih.upperBound (keyVal index.shape keys.2) with
  | some first, some last =>
    (ih.ixScan last).iterate .assertion (testRid f tab.cols conds) (ih.fd2pageno.toNat * ih.maxSize + 1) first
  | _, _ => .error .assertion

/-! ### What a sequential scan returns -/

/-- Does the record under the rid satisfy the conditions? -/
def satisfies (f : RmFileHandle) (cols : List ColMeta) (conds : List Condition) (rid : Rid) : Bool :=
  match f.records rid with
  | some rec => conds.all (condHolds cols rec)
  | none => false

theorem getRecord_eq {f : RmFileHandle} {rid : Rid} {rec : Bytes} (h : f.records rid = some rec) :
    f.getRecord rid = .ok rec := by
  have hin := RmFileHandle.inFile_of_records h
  unfold RmFileHandle.getRecord
  rw [RmFileHandle.fetchPageHandle_eq hin]
  simp only [bind, Except.bind, RmFileHandle.slot_eq_records hin, h]

/-- On a stored record the test gives whether it satisfies the conditions. -/
theorem testRid_eq {f : RmFileHandle} {cols : List ColMeta} {conds : List Condition}
    (hconds : ∀ c ∈ conds, ∃ lhs, CondOk cols c lhs) {rid : Rid} (hrid : (f.records rid).isSome) :
    testRid f cols conds rid = .ok (satisfies f cols conds rid) := by
  obtain ⟨rec, hrec⟩ := Option.isSome_iff_exists.mp hrid
  unfold testRid satisfies
  simp only [getRecord_eq hrec, hrec, Except.mapError, bind, Except.bind, evalConds_eq hconds]

theorem length_rids_le (f : RmFileHandle) : f.rids.length ≤ f.numPages.toNat * f.numRecordsPerPage := by
  have hpage : ∀ p s, (f.pageRids p s).length ≤ f.numRecordsPerPage := fun p s => by
    unfold RmFileHandle.pageRids
    rw [List.length_map]
    refine (List.length_filter_le _ _).trans ?_
    rw [List.length_range']
    omega
  have hfrom : ∀ bound p s, (f.ridsFrom bound p s).length ≤ bound * f.numRecordsPerPage := by
    intro bound
    induction bound with
    | zero => simp [RmFileHandle.ridsFrom]
    | succ bound ih =>
      intro p s
      rw [RmFileHandle.ridsFrom, List.length_append, Nat.succ_mul, Nat.add_comm]
      exact Nat.add_le_add (ih _ _) (hpage _ _)
  refine (hfrom _ _ _).trans (Nat.mul_le_mul_right _ ?_)
  unfold RM_FIRST_RECORD_PAGE
  omega

/-- **A sequential scan** returns the rids of the records that satisfy the conditions. -/
theorem seqScan_eq {tab : TabMeta} {f : RmFileHandle} {conds : List Condition}
    (hconds : ∀ c ∈ conds, ∃ lhs, CondOk tab.cols c lhs) :
    seqScan tab f conds = .ok (f.rids.filter (satisfies f tab.cols conds)) := by
  obtain ⟨first, last, hfirst, hv, hend⟩ := f.scan_visits
  unfold seqScan
  rw [hfirst]
  refine hv.mapError.iterate_ok (p := satisfies f tab.cols conds) hend ?_ ?_
  · intro r hr
    exact testRid_eq hconds (RmFileHandle.mem_rids.mp hr)
  · exact Nat.lt_succ_of_le (length_rids_le f)

end Rmdb.Execution
