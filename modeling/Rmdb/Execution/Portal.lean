import Rmdb.Execution.Dml
import Rmdb.Execution.Planned
import Rmdb.Execution.Scan
import Rmdb.Execution.Select
import Rmdb.Lib.Program

/-!
# Statements as programs

What `Portal::start` and `Portal::run` do for a `SELECT`, an `INSERT`, an `UPDATE` and a `DELETE`, access by
access: a scan executor asks for the shared lock of its table in its constructor, and the executors of a tree
are constructed from left to right before any row is read. `UPDATE` and `DELETE` first collect the rids of
their rows and then, in the constructor of their executor, ask for the exclusive lock; `INSERT` asks for it at once.

Every record is read for itself, when a scan comes upon it and again in `Next`. A join reads its left child block
by block, and its right child again for every block. Sorting, aggregates and projections read no
table, and are a function of the rows (`selectRows`). An `UPDATE` or a `DELETE` changes row by row.
-/

namespace Rmdb.Execution

open Lib Record Index Optimizer

/-- Rows that are read from the tables. -/
abbrev RowStream (R : Type) := Stream String Table R

/-! ### Scans -/

/-- The loops of `beginTuple` and `nextTuple` over a cursor, in at most so many rounds. -/
def scanFrom {S : Type} (tabName : String) (cursor : Table → Cursor S RMDBError Rid) (cols : List ColMeta)
    (conds : List Condition) : ℕ → S → RowStream Rid
  | 0, _ => .fail
  | rounds + 1, s => .look tabName fun t =>
    if (cursor t).isEnd s then .done
    else
      .attempt ((cursor t).read s) fun rid =>
        .attempt (testRid t.fh cols conds rid) fun passed =>
          let next : RowStream Rid := .look tabName fun t =>
            .attempt ((cursor t).next s) fun s => scanFrom tabName cursor cols conds rounds s
          if passed then .yield rid next else next

/-- `SeqScanExecutor`: the rids at which it stops. -/
def seqScanStream (tabName : String) (cols : List ColMeta) (conds : List Condition) : RowStream Rid :=
  .look tabName fun t => .attempt t.fh.scanBegin fun rid =>
    scanFrom tabName (fun t => t.fh.rmScan.mapError .record) cols conds (t.fh.numPages.toNat * t.fh.numRecordsPerPage + 1) rid

/-- `lower_bound` and `upper_bound` of a key, as they end. -/
def boundOf : Option Iid → Except RMDBError Iid
  | some iid => .ok iid
  | none => .error .assertion

/-- `IndexScanExecutor`: the rids at which it stops. -/
def indexScanStream (tabName : String) (tab : TabMeta) (conds : List Condition) (indexColNames : List String) : RowStream Rid :=
  .attempt (tab.getIndexMeta indexColNames) fun index =>
    .attempt (feedConds tabName conds) fun conds =>
      let keys := scanKeys conds false index.cols
      .look tabName fun t => .attempt (boundOf ((t.ihs index).lowerBound (keyVal index.shape keys.1))) fun first =>
        .look tabName fun t => .attempt (boundOf ((t.ihs index).upperBound (keyVal index.shape keys.2))) fun last =>
          scanFrom tabName (fun t => (t.ihs index).ixScan last) tab.cols conds
            ((t.ihs index).fd2pageno.toNat * (t.ihs index).maxSize + 1) first

/-- The executor of a `ScanPlan`. -/
def scanStream (db : DbMeta) (tag : ScanTag) (tabName : String) (conds : List Condition) (indexColNames : List String) :
    RowStream Rid :=
  .attempt (db.getTable tabName) fun tab =>
    match tag with
    | .seqScan => seqScanStream tabName tab.cols conds
    | .indexScan => indexScanStream tabName tab conds indexColNames

/-- `Next` of a scan executor at every rid. -/
def fetchRows (tabName : String) : RowStream Rid → RowStream Bytes :=
  Stream.bindRows fun rid rest => .look tabName fun t => .attempt (t.fh.getRecord rid) fun rec => .yield rec rest

/-! ### Joins -/

/-- `refill_left_block` goes no further. -/
def blockFull (p : JoinParams) (block : List Bytes) : Bool :=
  p.leftBlockCapacity ≤ block.length || kJoinBufferBytes ≤ (block.map List.length).sum

/-- A block and the rows of the right child; then the next block, unless the right child has no row. -/
def blockStream (p : JoinParams) (block : List Bytes) (rest : RowStream Bytes) : Bool → RowStream Bytes → RowStream Bytes
  | seen, .done => if seen then rest else .done
  | _, .fail => .fail
  | _, .yield rightRec right =>
    .attempt (filterE (fun leftRec => evalJoinConds p.leftCols p.rightCols leftRec rightRec p.fedConds) block) fun leftRecs =>
      .yieldAll (leftRecs.map fun leftRec => joinTuple p leftRec rightRec) (blockStream p block rest true right)
  | seen, .look tabName right => .look tabName fun t => blockStream p block rest seen (right t)

/-- `NestedLoopJoinExecutor`, with what is in the block. -/
def joinStream (p : JoinParams) (right : RowStream Bytes) : List Bytes → RowStream Bytes → RowStream Bytes
  | block, .done => if block.isEmpty then .done else blockStream p block .done false right
  | _, .fail => .fail
  | block, .yield leftRec left =>
    if blockFull p block then blockStream p block (joinStream p right [leftRec] left) false right
    else joinStream p right (block ++ [leftRec]) left
  | block, .look tabName left => .look tabName fun t => joinStream p right block (left t)

/-- The executors of the scans and joins of a plan. -/
def planStream (db : DbMeta) : Plan → RowStream Bytes
  | .scan tag tabName conds indexColNames => fetchRows tabName (scanStream db tag tabName conds indexColNames)
  | .join left right conds => joinStream (planParams db left right conds) (planStream db right) [] (planStream db left)

/-! ### The rows of a `SELECT` -/

/-- The rows in the order of the `ORDER BY`. -/
def sortRows (std : StdSort) (cols : List ColMeta) (order : Option (List (TabCol × Bool))) (rows : List Bytes) :
    Except RMDBError (List Bytes) :=
  match order with
  | none => .ok rows
  | some items => (getCols cols (items.map (·.1))).map fun sortCols => std.sort (sortLess (sortCols.zip (items.map (·.2)))) rows

/-- What stands above the scans and joins of a `SELECT` without a `LIMIT` makes of their rows. -/
def selectRows (D : DoubleOps) (std : StdSort) (cols : List ColMeta) (q : SelectQuery) (rows : List Bytes) :
    Except RMDBError (List Bytes) := do
  let rows ← sortRows std cols q.order rows
  if q.aggs ≠ [] then
    let outCols ← aggCols cols 0 q.aggs
    let res ← aggResult D cols q.aggs outCols rows
    .ok [res]
  else
    let outCols ← getCols cols q.cols
    .ok (rows.map (projectRow outCols))

/-! ### Statements -/

/-- A change of a row. -/
inductive RowOp where
  /-- `InsertExecutor::Next`. -/
  | insert (values : List Value)
  /-- A round of `UpdateExecutor::Next`. -/
  | update (setClauses : List SetClause) (rid : Rid)
  /-- A round of `DeleteExecutor::Next`. -/
  | delete (rid : Rid)

/-- What a change does. -/
def RowOp.exec : RowOp → Session → Session × Option RMDBError
  | insert values => Session.insert values
  | update setClauses rid => Session.updateRow setClauses rid
  | delete rid => Session.deleteRow rid

/-- What a change makes of a table and of the write set, if it throws nothing. -/
def RowOp.apply (op : RowOp) (t : Table) (writes : List WriteRecord) : Option (Table × List WriteRecord) :=
  match op.exec ⟨t, writes⟩ with
  | (s, none) => some (s.table, s.writes)
  | (_, some _) => none

/-- A statement, from `Portal::start` on; it returns rows. -/
abbrev StmtProg := Prog String Table RowOp (List Bytes)

/-- `DMLPlan`. -/
inductive DMLPlan where
  /-- `T_select`. -/
  | select (subplan : Plan) (query : SelectQuery)
  /-- `T_Insert`. -/
  | insert (tabName : String) (values : List Value)
  /-- `T_Update`, with its `ScanPlan`. -/
  | update (tag : ScanTag) (tabName : String) (conds : List Condition) (indexColNames : List String) (setClauses : List SetClause)
  /-- `T_Delete`, with its `ScanPlan`. -/
  | delete (tag : ScanTag) (tabName : String) (conds : List Condition) (indexColNames : List String)

namespace DMLPlan

/-- The tables of a statement. -/
def tables : DMLPlan → List String
  | select subplan _ => subplan.tables
  | insert tabName _ | update _ tabName _ _ _ | delete _ tabName _ _ => [tabName]

/-- There is no `LIMIT`. -/
def NoLimit : DMLPlan → Prop
  | select _ query => query.limit = -1
  | _ => True

/-- `Portal::start` and `Portal::run`; a `SELECT` is one without a `LIMIT`. -/
def prog (db : DbMeta) (D : DoubleOps) (std : StdSort) : DMLPlan → StmtProg
  | select subplan query =>
    .acquireAll subplan.tables ((planStream db subplan).collect
      (fun rows => .attempt (selectRows D std (planCols db subplan) query rows) .ret) [])
  | insert tabName values => .acquire tabName true (.write tabName (.insert values) (.ret []))
  | update tag tabName conds indexColNames setClauses =>
    .acquire tabName false ((scanStream db tag tabName conds indexColNames).collect
      (fun rids => .acquire tabName true (.writeAll tabName (rids.map (.update setClauses)) (.ret []))) [])
  | delete tag tabName conds indexColNames =>
    .acquire tabName false ((scanStream db tag tabName conds indexColNames).collect
      (fun rids => .acquire tabName true (.writeAll tabName (rids.map .delete) (.ret []))) [])

end DMLPlan

/-! ### The rows and the executors -/

/-- The rows of a `SELECT` are those that its plan produces. -/
theorem produces_selectRows {D : DoubleOps} {std : StdSort} {rel : ExecutorTree} {I : rel.State → Prop} {baseRows rows : List Bytes}
    {q : SelectQuery} {sortCols : Option (List (ColMeta × Bool))} {outCols : List ColMeta} (hrel : rel.exec.Enumerates I baseRows)
    (hinit : I rel.init) (hq : QueryOk rel.cols q sortCols outCols) (hlimit : q.limit = -1)
    (h : selectRows D std rel.cols q baseRows = .ok rows) : Produces D std rel q rows := by
  have hall : ∀ l : List Bytes, takeUpTo (limitOf q.limit) l = l := fun l => by
    rw [hlimit]
    rfl
  have hsorted : sortRows std rel.cols q.order baseRows = .ok (orderedRows std sortCols baseRows) := by
    rcases hq.order with ⟨horder, rfl⟩ | ⟨items, found, horder, hfound, rfl⟩
    · rw [horder]
      rfl
    · rw [horder, sortRows, hfound]
      rfl
  obtain ⟨rows₁, hrows₁, h⟩ := Analyze.bind_eq_ok h
  obtain rfl := Except.ok.inj (hsorted.symm.trans hrows₁)
  by_cases haggs : q.aggs = []
  · rw [if_neg (not_not.mpr haggs)] at h
    obtain ⟨cols, hcols, h⟩ := Analyze.bind_eq_ok h
    obtain rfl := Except.ok.inj ((hq.projection haggs).symm.trans hcols)
    cases h
    have hproduces := produces_projection D std hrel hinit hq haggs
    rwa [hall] at hproduces
  · rw [if_pos haggs] at h
    obtain ⟨cols, hcols, h⟩ := Analyze.bind_eq_ok h
    obtain rfl := Except.ok.inj ((hq.aggregate haggs).symm.trans hcols)
    obtain ⟨res, hres, h⟩ := Analyze.bind_eq_ok h
    cases h
    exact produces_aggregate D std hrel hinit hq haggs (by rwa [hall])

/-! ### Locks come first -/

section Within

variable {H : Set String}

theorem within_scanFrom {S : Type} {tabName : String} (htab : tabName ∈ H) {cursor : Table → Cursor S RMDBError Rid}
    {cols : List ColMeta} {conds : List Condition} : ∀ (rounds : ℕ) (s : S),
    (scanFrom tabName cursor cols conds rounds s).Within H
  | 0, _ => trivial
  | rounds + 1, s => by
    refine ⟨htab, ?_⟩
    intro t
    simp only
    split_ifs
    · trivial
    · refine .attempt (fun rid => .attempt ?_ _) _
      intro passed
      have hnext : (Stream.look tabName fun t => Stream.attempt ((cursor t).next s) fun s =>
          scanFrom tabName cursor cols conds rounds s).Within H :=
        .look htab fun t => .attempt (fun s => within_scanFrom htab rounds s) _
      split_ifs
      · exact hnext
      · exact hnext

theorem within_scanStream {db : DbMeta} {tag : ScanTag} {tabName : String} (htab : tabName ∈ H) (conds : List Condition)
    (indexColNames : List String) : (scanStream db tag tabName conds indexColNames).Within H := by
  refine .attempt ?_ _
  intro tab
  cases tag with
  | seqScan => exact .look htab fun t => .attempt (fun rid => within_scanFrom htab _ _) _
  | indexScan =>
    exact .attempt (fun index => .attempt (fun conds => .look htab fun t => .attempt (fun first =>
      .look htab fun t => .attempt (fun last => within_scanFrom htab _ _) _) _) _) _

theorem within_blockStream {p : JoinParams} {block : List Bytes} {rest : RowStream Bytes} (hrest : rest.Within H) :
    ∀ {right : RowStream Bytes} {seen : Bool}, right.Within H → (blockStream p block rest seen right).Within H
  | .done, seen, _ => by
    rw [blockStream]
    split_ifs
    · exact hrest
    · trivial
  | .fail, seen, _ => trivial
  | .yield _ right, seen, h => .attempt (fun leftRecs => .yieldAll (within_blockStream hrest (show right.Within H from h)) _) _
  | .look _ right, seen, h => .look h.1 fun t => within_blockStream hrest (h.2 t)

theorem within_joinStream {p : JoinParams} {right : RowStream Bytes} (hright : right.Within H) :
    ∀ {left : RowStream Bytes} {block : List Bytes}, left.Within H → (joinStream p right block left).Within H
  | .done, block, _ => by
    rw [joinStream]
    split_ifs
    · trivial
    · exact within_blockStream (show Stream.Within H .done from trivial) hright
  | .fail, block, _ => trivial
  | .yield leftRec left, block, h => by
    rw [joinStream]
    split_ifs
    · exact within_blockStream (within_joinStream hright (show left.Within H from h)) hright
    · exact within_joinStream hright (show left.Within H from h)
  | .look _ left, block, h => .look h.1 fun t => within_joinStream hright (h.2 t)

/-- The executors of a plan look at its tables only. -/
theorem within_planStream {db : DbMeta} : ∀ {plan : Plan}, (∀ k ∈ plan.tables, k ∈ H) → (planStream db plan).Within H
  | .scan tag tabName conds indexColNames, h => by
    have htab := h tabName (List.mem_singleton_self _)
    refine Stream.Within.bindRows ?_ (within_scanStream htab conds indexColNames)
    intro rid rest hrest
    exact .look htab fun t => .attempt (fun rec => (show Stream.Within H (.yield rec rest) from hrest)) _
  | .join left right conds, h =>
    within_joinStream (within_planStream fun k hk => h k (by simp [hk])) (within_planStream fun k hk => h k (by simp [hk]))

end Within

/-- **A statement** reads no table before it has asked for its lock, and changes none before it has asked for the
exclusive lock. -/
theorem DMLPlan.guarded (stmt : DMLPlan) (db : DbMeta) (D : DoubleOps) (std : StdSort) (rd wr : Set String) :
    (stmt.prog db D std).Guarded rd wr := by
  cases stmt with
  | select subplan query =>
    refine Prog.guarded_acquireAll ((within_planStream fun k hk => Or.inr hk).guarded ?_)
    intro rows
    cases selectRows D std (planCols db subplan) query rows with
    | error e => trivial
    | ok result => trivial
  | insert tabName values => exact ⟨Set.mem_insert .., trivial⟩
  | update tag tabName conds indexColNames setClauses =>
    refine (within_scanStream (Set.mem_insert ..) conds indexColNames).guarded ?_
    intro rids
    exact Prog.guarded_writeAll (Set.mem_insert ..) (Prog.guarded_ret _ _ _) _
  | delete tag tabName conds indexColNames =>
    refine (within_scanStream (Set.mem_insert ..) conds indexColNames).guarded ?_
    intro rids
    exact Prog.guarded_writeAll (Set.mem_insert ..) (Prog.guarded_ret _ _ _) _

end Rmdb.Execution
