import Rmdb.Optimizer.IndexChoice

/-!
# Planning scans and joins

`Planner::make_one_rel`: the scans and joins of a `SELECT`. Each table gets a scan with the
conditions that `pop_conds` takes out of the `WHERE` list for it; the conditions that
remain are meant to be joins. The first of them joins its two tables. Each further one
brings in the tables that are not joined yet, to the left of the tree, or, if both are in
the tree, goes down to the lowest join above both (`push_conds`). A condition may have its
sides exchanged on the way. Tables that no condition has brought in are joined at the end.

Plans are trees here; the shared pointers of the source are never shared between two
places of the result. A null pointer, left behind by `pop_scan` for a table that has no
scan, is the error `assertion`.
-/

namespace Rmdb.Optimizer

/-- The tag of a `ScanPlan`. -/
inductive ScanTag where
  /-- `T_SeqScan`. -/
  | seqScan
  /-- `T_IndexScan`. -/
  | indexScan
deriving DecidableEq

/-- `ScanPlan` and `JoinPlan` with `T_NestLoop`. -/
inductive Plan where
  /-- `ScanPlan(tag, tab_name, conds, index_col_names)`. -/
  | scan (tag : ScanTag) (tabName : String) (conds : List Condition) (indexColNames : List String)
  /-- `JoinPlan(T_NestLoop, left, right, conds)`. -/
  | join (left right : Plan) (conds : List Condition)
deriving DecidableEq

/-- The test of `pop_conds`. -/
def popsCond (tabName : String) (cond : Condition) : Bool :=
  (tabName = cond.lhsCol.tabName && cond.isRhsVal) || cond.lhsCol.tabName = cond.rhsCol.tabName

/-- `pop_conds`: the conditions taken out for a table, and those that stay. -/
def popConds (conds : List Condition) (tabName : String) : List Condition × List Condition :=
  (conds.filter (popsCond tabName), conds.filter fun cond => !popsCond tabName cond)

/-- `push_conds`: `1` or `2` if the left- or right-hand table is below, `3` if the condition has been attached. -/
def pushConds (cond : Condition) : Plan → ℕ × Plan
  | .scan tag tabName conds cols =>
    (if tabName = cond.lhsCol.tabName then 1 else if tabName = cond.rhsCol.tabName then 2 else 0,
      .scan tag tabName conds cols)
  | .join left right conds =>
    let l := pushConds cond left
    if l.1 = 3 then (3, .join l.2 right conds)
    else
      let r := pushConds cond right
      if r.1 = 3 then (3, .join left r.2 conds)
      else if l.1 = 0 ∨ r.1 = 0 then (l.1 + r.1, .join left right conds)
      else (3, .join left right (conds ++ [if l.1 = 2 then cond.swapped else cond]))

/-- The first loop of `make_one_rel`: a scan for each table, and the conditions that remain. -/
def makeScans (db : DbMeta) : List String → List Condition → Except RMDBError (List Plan × List Condition)
  | [], conds => .ok ([], conds)
  | tabName :: tables, conds => do
    let popped := popConds conds tabName
    let tab ← db.getTable tabName
    let scan := match getIndexCols tab popped.1 with
      | none => Plan.scan .seqScan tabName popped.1 []
      | some cols => Plan.scan .indexScan tabName popped.1 cols
    let rest ← makeScans db tables popped.2
    .ok (scan :: rest.1, rest.2)

/-- The name of the table of a scan. -/
def Plan.tabName : Plan → String
  | .scan _ tabName _ _ => tabName
  | .join .. => ""

/-- What the loops over the join conditions change. -/
structure Joining where
  /-- `scantbl`: which scans are in the tree. -/
  scantbl : List Bool
  /-- `joined_tables`. -/
  joinedTables : List String
  /-- `table_join_executors`. -/
  plan : Plan

/-- `pop_scan`: the scan of a table, marked as used, or a null pointer. -/
def popScan (scans : List Plan) (table : String) (scantbl : List Bool) (joinedTables : List String) :
    Option Plan × List Bool × List String :=
  match scans.findIdx? (·.tabName = table) with
  | some i => (scans[i]?, scantbl.set i true, joinedTables ++ [table])
  | none => (none, scantbl, joinedTables)

/-- The first join. -/
def firstJoin (scans : List Plan) (cond : Condition) : Except RMDBError Joining :=
  let l := popScan scans cond.lhsCol.tabName (List.replicate scans.length false) (List.replicate scans.length "")
  let r := popScan scans cond.rhsCol.tabName l.2.1 l.2.2
  match l.1, r.1 with
  | some left, some right => .ok ⟨r.2.1, r.2.2, .join left right [cond]⟩
  | _, _ => .error .assertion

/-- One round of the loop over the other join conditions. -/
def joinNext (scans : List Plan) (st : Joining) (cond : Condition) : Except RMDBError Joining :=
  let l := if cond.lhsCol.tabName ∈ st.joinedTables then (none, st.scantbl, st.joinedTables)
    else popScan scans cond.lhsCol.tabName st.scantbl st.joinedTables
  let r := if cond.rhsCol.tabName ∈ l.2.2 then (none, l.2.1, l.2.2)
    else popScan scans cond.rhsCol.tabName l.2.1 l.2.2
  match l.1, r.1 with
  | some left, some right => .ok ⟨r.2.1, r.2.2, .join (.join left right [cond]) st.plan []⟩
  | some left, none =>
    -- with `isneedreverse` the null pointer for the right-hand table would become the left child
    if cond.rhsCol.tabName ∈ l.2.2 then .ok ⟨r.2.1, r.2.2, .join left st.plan [cond]⟩ else .error .assertion
  | none, some right => .ok ⟨r.2.1, r.2.2, .join right st.plan [cond.swapped]⟩
  | none, none => .ok ⟨r.2.1, r.2.2, (pushConds cond st.plan).2⟩

/-- The last loop: the tables that are not joined yet. -/
def joinRest (scans : List Plan) (scantbl : List Bool) (plan : Plan) : Plan :=
  (scans.zip scantbl).foldl (fun plan scan => if scan.2 then plan else .join scan.1 plan []) plan

/-- `make_one_rel`. -/
def makeOneRel (db : DbMeta) (tables : List String) (conds : List Condition) : Except RMDBError Plan := do
  let (scans, conds) ← makeScans db tables conds
  match scans, conds with
  | [], _ => .error .assertion
  | [scan], _ => .ok scan
  | scan :: scans, [] => .ok (joinRest (scan :: scans) (true :: List.replicate scans.length false) scan)
  | scans, cond :: conds => do
    let st ← firstJoin scans cond
    let st ← conds.foldlM (joinNext scans) st
    .ok (joinRest scans st.scantbl st.plan)

end Rmdb.Optimizer
