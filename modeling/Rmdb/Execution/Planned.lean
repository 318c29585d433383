import Rmdb.Analyze.Clause
import Rmdb.Execution.Values
import Rmdb.Lib.Product
import Rmdb.Optimizer.Placement
import Mathlib.Data.List.Find

/-!
# What a plan returns

The scans and joins of a `SELECT`, as executors see them: the columns of a node, one table after
the other with the offsets shifted (`planCols`), and its rows (`planRows`), which evaluate the
conditions of the node where they are attached. The other side is the cross product of the tables:
a row of it gives every table a record, and satisfies a condition if the values of the columns do
(`holdsIn`).

Where every condition is at a node whose tables it mentions (`CondsPlaced`), the two agree
(`planRows_eq`). A `NestedLoopJoinExecutor` over children that enumerate the rows of two plans
enumerates those of their join (`enumerates_planJoin`).
-/

namespace Rmdb.Execution

open Lib Optimizer

/-! ### The executors of a plan -/

section Plans

variable (db : DbMeta)

/-- `tupleLen()` of the executor. -/
def planLen : Plan → ℕ
  | .scan _ tabName _ _ => ((db.tabs tabName).map (·.recordSize)).getD 0
  | .join left right _ => planLen left + planLen right

/-- `cols()` of the executor. -/
def planCols : Plan → List ColMeta
  | .scan _ tabName _ _ => ((db.tabs tabName).map (·.cols)).getD []
  | .join left right _ => planCols left ++ (planCols right).map fun col => { col with offset := col.offset + planLen db left }

/-- Where the executor looks up the columns of its conditions. -/
def planEvaluator : Plan → Evaluator
  | .scan tag tabName conds cols => .scan (planCols db (.scan tag tabName conds cols))
  | .join left right _ => .join (planCols db left) (planCols db right)

/-- The elements that pass a test, if it ends on all of them. -/
def filterE {A : Type} (test : A → Except RMDBError Bool) : List A → Except RMDBError (List A)
  | [] => .ok []
  | a :: as => do
    let passed ← test a
    let rest ← filterE test as
    .ok (if passed then a :: rest else rest)

/-- The rows that the executor of a plan returns, for these rows of the tables. -/
def planRows (tabRows : String → List Bytes) : Plan → Except RMDBError (List Bytes)
  | .scan tag tabName conds cols =>
    filterE (fun rec => evalConds (planCols db (.scan tag tabName conds cols)) rec conds) (tabRows tabName)
  | .join left right conds => do
    let leftRows ← planRows tabRows left
    let rightRows ← planRows tabRows right
    let pairs ← filterE (fun x => evalJoinConds (planCols db left) (planCols db right) x.1 x.2 conds)
      (leftRows ×ˢ rightRows)
    .ok (pairs.map fun x => x.1.take (planLen db left) ++ x.2.take (planLen db right))

/-- Where a condition is attached its columns are there, and are compared as values. -/
def CondSees (ev : Evaluator) (cond : Condition) : Prop :=
  ∃ l, ev.find cond.lhsCol = some l ∧ (cond.isRhsVal = false →
    ∃ r, ev.find cond.rhsCol = some r ∧ ComparesWhole l.col.type l.col.len r.col.len cond.op)

/-- Every condition of a plan sees its columns. -/
def Sees : Plan → Prop
  | .scan tag tabName conds cols => ∀ c ∈ conds, CondSees (planEvaluator db (.scan tag tabName conds cols)) c
  | .join left right conds => Sees left ∧ Sees right ∧ ∀ c ∈ conds, CondSees (planEvaluator db (.join left right conds)) c

end Plans

/-! ### The cross product -/

/-- A row of a cross product: a record for every table. -/
abbrev Row := List (String × Bytes)

/-- The bytes of a row. -/
def Row.bytes (row : Row) : Bytes := row.flatMap (·.2)

section Product

variable (db : DbMeta) (row : String → Option Bytes)

/-- The value of a column in a row, with its type. -/
def colValue (target : TabCol) : Option (ColType × Bytes) := do
  let tab ← db.tabs target.tabName
  let col ← tab.cols.find? (·.name = target.colName)
  let rec ← row target.tabName
  return (col.type, col.read rec)

/-- The value on the right-hand side of a condition. -/
def rhsValue (cond : Condition) : Option (ColType × Bytes) :=
  if cond.isRhsVal then cond.rhsVal.raw.map (cond.rhsVal.type, ·) else colValue db row cond.rhsCol

/-- **A row satisfies a condition.** -/
def holdsIn (cond : Condition) : Bool :=
  match colValue db row cond.lhsCol, rhsValue db row cond with
  | some l, some r => cond.op.holds (compareValues l.1 l.2 r.2)
  | _, _ => false

end Product

/-- A record of a table has the length of its records, and every column lies inside it. -/
def RecordFits (tab : TabMeta) (rec : Bytes) : Prop :=
  rec.length = tab.recordSize ∧ ∀ c ∈ tab.cols, c.offset + c.len ≤ rec.length

/-- The rows of every table are records of it. -/
def RowsFit (db : DbMeta) (tabRows : String → List Bytes) : Prop :=
  ∀ t tab, db.tabs t = some tab → ∀ rec ∈ tabRows t, RecordFits tab rec

/-! ### Columns and their bytes -/

/-- A row over the tables of a plan. -/
structure RowOf (db : DbMeta) (plan : Plan) (row : Row) : Prop where
  tables : row.map (·.1) = plan.tables
  fits : ∀ e ∈ row, ∀ tab, db.tabs e.1 = some tab → RecordFits tab e.2

/-- The tables of a plan are there, each of them once. -/
structure PlanOk (db : DbMeta) (plan : Plan) : Prop where
  catalog : db.Ok
  found : ∀ t ∈ plan.tables, ∃ tab, db.tabs t = some tab
  nodup : plan.tables.Nodup

section Columns

variable {db : DbMeta} {left right : Plan} {conds : List Condition}

theorem PlanOk.children (h : PlanOk db (.join left right conds)) :
    PlanOk db left ∧ PlanOk db right ∧ ∀ t ∈ left.tables, t ∉ right.tables := by
  have hnd := h.nodup
  have hfound := h.found
  rw [Plan.tables_join] at hnd hfound
  obtain ⟨hl, hr, hdis⟩ := List.nodup_append'.mp hnd
  exact ⟨⟨h.catalog, fun t ht => hfound t (List.mem_append_left _ ht), hl⟩,
    ⟨h.catalog, fun t ht => hfound t (List.mem_append_right _ ht), hr⟩, fun t ht ht' => hdis ht ht'⟩

/-- A row over the tables of a join is one over those of each side. -/
theorem RowOf.children {row : Row} (h : RowOf db (.join left right conds) row) :
    ∃ a b, row = a ++ b ∧ RowOf db left a ∧ RowOf db right b := by
  have htables := h.tables
  rw [Plan.tables_join] at htables
  obtain ⟨a, b, rfl, ha, hb⟩ := List.map_eq_append_iff.mp htables
  exact ⟨a, b, rfl, ⟨ha, fun e he => h.fits e (List.mem_append_left _ he)⟩,
    ⟨hb, fun e he => h.fits e (List.mem_append_right _ he)⟩⟩

theorem Row.bytes_append (a b : Row) : Row.bytes (a ++ b) = a.bytes ++ b.bytes := List.flatMap_append

theorem valueAt_append_left {a b : Row} {t : String} (ht : t ∈ a.map (·.1)) : valueAt (a ++ b) t = valueAt a t := by
  obtain ⟨e, he, heq⟩ := List.mem_map.mp ht
  obtain ⟨e', he'⟩ := Option.isSome_iff_exists.mp (List.find?_isSome (p := fun x : String × Bytes => decide (x.1 = t)).mpr
    ⟨e, he, decide_eq_true heq⟩)
  rw [valueAt, valueAt, List.find?_append, he', Option.some_or]

theorem valueAt_append_right {a b : Row} {t : String} (ht : t ∉ a.map (·.1)) : valueAt (a ++ b) t = valueAt b t := by
  have hnone : a.find? (fun x => decide (x.1 = t)) = none :=
    List.find?_eq_none.mpr fun e he h => ht (List.mem_map.mpr ⟨e, he, of_decide_eq_true h⟩)
  rw [valueAt, valueAt, List.find?_append, hnone, Option.none_or]

/-- A row has as many bytes as the executor's rows. -/
theorem RowOf.length_bytes : ∀ {plan : Plan} {row : Row}, PlanOk db plan → RowOf db plan row →
    row.bytes.length = planLen db plan
  | .scan tag t conds cols, row, hplan, hrow => by
    obtain ⟨e, rfl, he⟩ := List.map_eq_singleton_iff.mp hrow.tables
    obtain ⟨tab, htab⟩ := hplan.found t (List.mem_singleton_self t)
    have hfits := hrow.fits e (List.mem_singleton_self e) tab (he ▸ htab)
    rw [Row.bytes, List.flatMap_singleton, hfits.1, planLen, htab]
    rfl
  | .join left right conds, row, hplan, hrow => by
    obtain ⟨hleft, hright, -⟩ := hplan.children
    obtain ⟨a, b, rfl, ha, hb⟩ := hrow.children
    rw [Row.bytes_append, List.length_append, ha.length_bytes hleft, hb.length_bytes hright, planLen]

/-- The columns of a table are found by their names. -/
theorem find_isTarget {cols : List ColMeta} {target : TabCol} (h : ∀ c ∈ cols, c.tabName = target.tabName) :
    cols.find? (isTarget target) = cols.find? (·.name = target.colName) := by
  refine List.find?_congr fun c hc => ?_
  simp [isTarget, h c hc]

theorem tabName_of_mem_planCols : ∀ {plan : Plan}, PlanOk db plan → ∀ c ∈ planCols db plan, c.tabName ∈ plan.tables
  | .scan tag t conds cols, hplan, c, hc => by
    obtain ⟨tab, htab⟩ := hplan.found t (List.mem_singleton_self t)
    obtain ⟨hname, hok⟩ := hplan.catalog.tabs htab
    rw [planCols, htab] at hc
    exact List.mem_singleton.mpr ((hok.cols c hc).1.trans hname)
  | .join left right conds, hplan, c, hc => by
    obtain ⟨hleft, hright, -⟩ := hplan.children
    rw [planCols] at hc
    rw [Plan.tables_join]
    rcases List.mem_append.mp hc with hc | hc
    · exact List.mem_append_left _ (tabName_of_mem_planCols hleft c hc)
    · obtain ⟨c', hc', rfl⟩ := List.mem_map.mp hc
      exact List.mem_append_right _ (tabName_of_mem_planCols hright c' hc')

theorem find_planCols_none {plan : Plan} (hplan : PlanOk db plan) {target : TabCol} (ht : target.tabName ∉ plan.tables) :
    (planCols db plan).find? (isTarget target) = none :=
  List.find?_eq_none.mpr fun c hc h => ht ((of_decide_eq_true h).1 ▸ tabName_of_mem_planCols hplan c hc)

/-- **Where a column is** in the rows of a plan: behind the records of the tables to the left. -/
theorem find_planCols {target : TabCol} {tab : TabMeta} (htab : db.tabs target.tabName = some tab) : ∀ {plan : Plan},
    PlanOk db plan → target.tabName ∈ plan.tables →
    ∃ k, (planCols db plan).find? (isTarget target) =
        (tab.cols.find? (·.name = target.colName)).map (fun col => { col with offset := col.offset + k }) ∧
      ∀ row, RowOf db plan row → ∃ rec rest, valueAt row target.tabName = some rec ∧ RecordFits tab rec ∧
        k ≤ row.bytes.length ∧ row.bytes.drop k = rec ++ rest
  | .scan tag t conds cols, hplan, ht => by
    obtain rfl := List.mem_singleton.mp ht
    obtain ⟨hname, hok⟩ := hplan.catalog.tabs htab
    refine ⟨0, ?_, ?_⟩
    · rw [planCols, htab, Option.map_some, Option.getD_some, find_isTarget fun c hc => (hok.cols c hc).1.trans hname]
      exact (congrFun Option.map_id _).symm
    · intro row hrow
      obtain ⟨e, rfl, he⟩ := List.map_eq_singleton_iff.mp hrow.tables
      have he : e.1 = target.tabName := he
      refine ⟨e.2, [], ?_, hrow.fits e (List.mem_singleton_self e) tab (he ▸ htab), Nat.zero_le _, ?_⟩
      · simp [valueAt, he]
      · simp [Row.bytes]
  | .join left right conds, hplan, ht => by
    obtain ⟨hleft, hright, hdis⟩ := hplan.children
    rw [Plan.tables_join] at ht
    have hshift : ∀ p : ColMeta → Bool, (∀ c : ColMeta, p { c with offset := c.offset + planLen db left } = p c) →
        ((planCols db right).map fun col => { col with offset := col.offset + planLen db left }).find? p =
          ((planCols db right).find? p).map fun col => { col with offset := col.offset + planLen db left } := by
      intro p hp
      rw [List.find?_map]
      exact congrArg _ (List.find?_congr fun c _ => hp c)
    rw [planCols, List.find?_append, hshift (isTarget target) fun c => rfl]
    rcases List.mem_append.mp ht with ht | ht
    · obtain ⟨k, hfind, hbytes⟩ := find_planCols htab hleft ht
      refine ⟨k, ?_, ?_⟩
      · rw [hfind, find_planCols_none hright (hdis _ ht), Option.map_none, Option.or_none]
      · intro row hrow
        obtain ⟨a, b, rfl, ha, hb⟩ := hrow.children
        obtain ⟨rec, rest, hvalue, hfits, hle, hdrop⟩ := hbytes a ha
        refine ⟨rec, rest ++ b.bytes, ?_, hfits, ?_, ?_⟩
        · rw [valueAt_append_left (ha.tables ▸ ht), hvalue]
        · rw [Row.bytes_append, List.length_append]
          omega
        · rw [Row.bytes_append, List.drop_append_of_le_length hle, hdrop, List.append_assoc]
    · have hnot : target.tabName ∉ left.tables := fun h => hdis _ h ht
      obtain ⟨k, hfind, hbytes⟩ := find_planCols htab hright ht
      refine ⟨k + planLen db left, ?_, ?_⟩
      · rw [find_planCols_none hleft hnot, Option.none_or, hfind, Option.map_map]
        refine congrArg (Option.map · _) (funext ?_)
        intro col
        simp only [Function.comp_apply, Nat.add_assoc]
      · intro row hrow
        obtain ⟨a, b, rfl, ha, hb⟩ := hrow.children
        obtain ⟨rec, rest, hvalue, hfits, hle, hdrop⟩ := hbytes b hb
        have hlen := ha.length_bytes hleft
        refine ⟨rec, rest, ?_, hfits, ?_, ?_⟩
        · rw [valueAt_append_right (ha.tables ▸ hnot), hvalue]
        · rw [Row.bytes_append, List.length_append]
          omega
        · rw [Row.bytes_append, ← hlen, Nat.add_comm, List.drop_length_add_append, hdrop]

end Columns

/-! ### Conditions and their values -/

/-- The executor finds a column under a name, and at the pointer to it the value that the row has. -/
structure Reads (db : DbMeta) (ev : Evaluator) (pair : Bytes × Bytes) (row : String → Option Bytes) (target : TabCol)
    (col : ColMeta) (x : Operand) : Prop where
  found : ev.find target = some x
  type : x.col.type = col.type
  len : x.col.len = col.len
  value : colValue db row target = some (col.type, (x.ptr pair).take col.len)
  fits : col.len ≤ (x.ptr pair).length

section Conditions

variable {db : DbMeta} {ev : Evaluator} {pair : Bytes × Bytes} {row : String → Option Bytes} {cond : Condition}

/-- A column of one of the tables has been looked up in the catalog. -/
theorem colValue_eq {tables : List String} {target : TabCol} {col : ColMeta} (h : Analyze.ColOf db tables target col)
    {rec : Bytes} (hrec : row target.tabName = some rec) : colValue db row target = some (col.type, col.read rec) := by
  obtain ⟨tab, htab, hcol⟩ := h.found
  rw [TabMeta.getCol] at hcol
  split at hcol
  · rename_i c hc
    cases hcol
    simp only [colValue, htab, hc, hrec, Option.bind_eq_bind, Option.bind_some, Option.pure_def]
  · cases hcol

/-- **Two columns** are compared as values where the comparison looks at the whole of them. -/
theorem Reads.eval_col {lcol rcol : ColMeta} {l r : Operand} (hl : Reads db ev pair row cond.lhsCol lcol l)
    (hr : Reads db ev pair row cond.rhsCol rcol r) (hval : cond.isRhsVal = false) (htype : rcol.type = lcol.type)
    (hwhole : ComparesWhole lcol.type lcol.len rcol.len cond.op) : ev.eval pair cond = .ok (holdsIn db row cond) := by
  obtain ⟨lhs, op, isVal, rhs, val⟩ := cond
  obtain rfl : isVal = false := hval
  have heval := Evaluator.eval_eq hl.found hr.found (by rw [hl.type, hr.type, htype]) pair op val
  have hsat : holdsIn db row ⟨lhs, op, false, rhs, val⟩ =
      op.holds (compareValues lcol.type ((l.ptr pair).take lcol.len) ((r.ptr pair).take rcol.len)) := by
    have hlv := hl.value
    have hrv := hr.value
    simp only at hlv hrv
    simp only [holdsIn, rhsValue, hlv, hrv, Bool.false_eq_true, if_false]
  rw [heval, hsat, hl.type, hl.len, hwhole _ _ hl.fits hr.fits]

/-- A column and a value. -/
theorem Reads.evalCond_val {cols : List ColMeta} {rec : Bytes} {lcol : ColMeta} {l : Operand}
    (hl : Reads db (.scan cols) (rec, []) row cond.lhsCol lcol l) (hval : cond.isRhsVal = true) (hok : lcol.LenOk)
    (htype : cond.rhsVal.type = lcol.type) {raw : Bytes} (hraw : cond.rhsVal.raw = some raw) (hlen : raw.length = lcol.len) :
    evalCond cols rec cond = .ok (holdsIn db row cond) := by
  obtain ⟨col, hfind, rfl⟩ := Option.map_eq_some_iff.mp hl.found
  have hwhole : ComparesWhole lcol.type lcol.len lcol.len cond.op := by
    by_cases hstring : lcol.type = .string
    · rw [hstring]
      exact comparesWhole_string.mpr (Or.inl rfl)
    · exact comparesWhole_of_ne_string hstring (width_le hok) (width_le hok) cond.op
  have hcode := hwhole _ raw hl.fits hlen.ge
  have hsat : holdsIn db row cond = cond.op.holds
      (compareValues lcol.type (((⟨false, col⟩ : Operand).ptr (rec, [])).take lcol.len) raw) := by
    simp only [holdsIn, rhsValue, hval, if_true, hraw, Option.map_some, hl.value]
  have htype' : col.type = lcol.type := hl.type
  have hlen' : col.len = lcol.len := hl.len
  rw [List.take_of_length_le hlen.le, ← hsat] at hcode
  rw [evalCond, getCol_of_find hfind, rhsOf, hval, hraw, htype]
  simp only [bind, Except.bind, if_true, htype', ne_eq, not_true_eq_false, if_false, hlen']
  exact congrArg Except.ok hcode

theorem evalConds_of_eval {cols : List ColMeta} {rec : Bytes} {test : Condition → Bool} : ∀ {conds : List Condition},
    (∀ c ∈ conds, evalCond cols rec c = .ok (test c)) → evalConds cols rec conds = .ok (conds.all test)
  | [], _ => rfl
  | c :: conds, h => by
    have ih := evalConds_of_eval fun c' hc' => h c' (List.mem_cons_of_mem _ hc')
    rw [evalConds, h c List.mem_cons_self, List.all_cons]
    cases htest : test c with
    | true => simpa [bind, Except.bind] using ih
    | false => rfl

theorem evalJoinConds_of_eval {leftCols rightCols : List ColMeta} {l r : Bytes} {test : Condition → Bool} :
    ∀ {conds : List Condition}, (∀ c ∈ conds, evalJoinCond leftCols rightCols l r c = .ok (test c)) →
      evalJoinConds leftCols rightCols l r conds = .ok (conds.all test)
  | [], _ => rfl
  | c :: conds, h => by
    have ih := evalJoinConds_of_eval fun c' hc' => h c' (List.mem_cons_of_mem _ hc')
    rw [evalJoinConds, h c List.mem_cons_self, List.all_cons]
    cases htest : test c with
    | true => simpa [bind, Except.bind] using ih
    | false => rfl

theorem filterE_map {A B : Type} (f : A → B) (test : B → Except RMDBError Bool) {passes : A → Bool} : ∀ {as : List A},
    (∀ a ∈ as, test (f a) = .ok (passes a)) → filterE test (as.map f) = .ok ((as.filter passes).map f)
  | [], _ => rfl
  | a :: as, h => by
    have ih := filterE_map f test fun a' ha' => h a' (List.mem_cons_of_mem _ ha')
    rw [List.map_cons, filterE, h a List.mem_cons_self, ih, List.filter_cons]
    cases passes a <;> rfl

/-- A condition is about the records of the tables that it mentions. -/
theorem holdsIn_congr {row' : String → Option Bytes} (hl : row cond.lhsCol.tabName = row' cond.lhsCol.tabName)
    (hr : cond.isRhsVal = false → row cond.rhsCol.tabName = row' cond.rhsCol.tabName) :
    holdsIn db row cond = holdsIn db row' cond := by
  have hlv : colValue db row cond.lhsCol = colValue db row' cond.lhsCol := by rw [colValue, colValue, hl]
  have hrv : rhsValue db row cond = rhsValue db row' cond := by
    rw [rhsValue, rhsValue]
    split_ifs with hval
    · rfl
    · rw [colValue, colValue, hr (Bool.eq_false_iff.mpr hval)]
  rw [holdsIn, holdsIn, hlv, hrv]

end Conditions

/-! ### The rows of a plan -/

section Rows

variable {db : DbMeta} {tables : List String}

/-- The column of a plan's rows that a name stands for, and the value that is there. -/
theorem find_column {plan : Plan} (hplan : PlanOk db plan) {target : TabCol} {col : ColMeta}
    (hcol : Analyze.ColOf db tables target col) (ht : target.tabName ∈ plan.tables) :
    ∃ c, (planCols db plan).find? (isTarget target) = some c ∧ c.type = col.type ∧ c.len = col.len ∧
      ∀ row, RowOf db plan row → ∃ rec, valueAt row target.tabName = some rec ∧
        (row.bytes.drop c.offset).take col.len = col.read rec ∧ col.len ≤ (row.bytes.drop c.offset).length := by
  obtain ⟨tab, htab, hget⟩ := hcol.found
  obtain ⟨k, hfind, hbytes⟩ := find_planCols htab hplan ht
  have hmem : tab.cols.find? (·.name = target.colName) = some col := by
    rw [TabMeta.getCol] at hget
    split at hget
    · rename_i c hc
      cases hget
      exact hc
    · cases hget
  refine ⟨{ col with offset := col.offset + k }, by rw [hfind, hmem, Option.map_some], rfl, rfl, ?_⟩
  intro row hrow
  obtain ⟨rec, rest, hvalue, hfits, -, hdrop⟩ := hbytes row hrow
  have hin := hfits.2 col (List.mem_of_find?_eq_some hmem)
  have hptr : row.bytes.drop (col.offset + k) = rec.drop col.offset ++ rest := by
    rw [Nat.add_comm, ← List.drop_drop, hdrop, List.drop_append_of_le_length (by omega)]
  refine ⟨rec, hvalue, ?_, ?_⟩
  · rw [hptr, List.take_append_of_le_length (by rw [List.length_drop]; omega), ColMeta.read]
  · rw [hptr, List.length_append, List.length_drop]
    omega

/-- In a scan. -/
theorem reads_scan {plan : Plan} (hplan : PlanOk db plan) {row : Row} (hrow : RowOf db plan row) {target : TabCol}
    {col : ColMeta} (hcol : Analyze.ColOf db tables target col) (ht : target.tabName ∈ plan.tables) :
    ∃ x, Reads db (.scan (planCols db plan)) (row.bytes, []) (valueAt row) target col x := by
  obtain ⟨c, hfind, htype, hlen, hbytes⟩ := find_column hplan hcol ht
  obtain ⟨rec, hvalue, htake, hle⟩ := hbytes row hrow
  refine ⟨⟨false, c⟩, by rw [Evaluator.find, hfind, Option.map_some], htype, hlen, ?_, hle⟩
  rw [colValue_eq hcol hvalue, ← htake]
  rfl

/-- On the left of a join. -/
theorem reads_left {left : Plan} (right : Plan) (hleft : PlanOk db left) {a b : Row} (ha : RowOf db left a) {target : TabCol}
    {col : ColMeta} (hcol : Analyze.ColOf db tables target col) (ht : target.tabName ∈ left.tables) :
    ∃ x, Reads db (.join (planCols db left) (planCols db right)) (a.bytes, b.bytes) (valueAt (a ++ b)) target col x := by
  obtain ⟨c, hfind, htype, hlen, hbytes⟩ := find_column hleft hcol ht
  obtain ⟨rec, hvalue, htake, hle⟩ := hbytes a ha
  refine ⟨⟨false, c⟩, by rw [Evaluator.find, hfind], htype, hlen, ?_, hle⟩
  rw [colValue_eq hcol ((valueAt_append_left (ha.tables ▸ ht)).trans hvalue), ← htake]
  rfl

/-- On the right of a join. -/
theorem reads_right {left right : Plan} (hleft : PlanOk db left) (hright : PlanOk db right) {a b : Row}
    (ha : RowOf db left a) (hb : RowOf db right b) {target : TabCol} {col : ColMeta}
    (hcol : Analyze.ColOf db tables target col) (hnot : target.tabName ∉ left.tables) (ht : target.tabName ∈ right.tables) :
    ∃ x, Reads db (.join (planCols db left) (planCols db right)) (a.bytes, b.bytes) (valueAt (a ++ b)) target col x := by
  obtain ⟨c, hfind, htype, hlen, hbytes⟩ := find_column hright hcol ht
  obtain ⟨rec, hvalue, htake, hle⟩ := hbytes b hb
  refine ⟨⟨true, c⟩, ?_, htype, hlen, ?_, hle⟩
  · rw [Evaluator.find, find_planCols_none hleft hnot]
    simp only [hfind, Option.map_some]
  · rw [colValue_eq hcol ((valueAt_append_right (ha.tables ▸ hnot)).trans hvalue), ← htake]
    rfl

/-- What a condition must be for the comparison to be one of the values: its columns are there, the types agree, a value
has the length of its column, and two columns are compared whole. -/
structure CondWhole (db : DbMeta) (tables : List String) (cond : Condition) (lhs : ColMeta) : Prop where
  left : Analyze.ColOf db tables cond.lhsCol lhs
  val : cond.isRhsVal = true → cond.rhsVal.type = lhs.type ∧ ∃ raw, cond.rhsVal.raw = some raw ∧ raw.length = lhs.len
  col : cond.isRhsVal = false → ∃ rhs, Analyze.ColOf db tables cond.rhsCol rhs ∧ rhs.type = lhs.type ∧
    ComparesWhole lhs.type lhs.len rhs.len cond.op

/-- The tables that a condition mentions. -/
def Mentions (tables : List String) (cond : Condition) : Prop :=
  cond.lhsCol.tabName ∈ tables ∧ (cond.isRhsVal = false → cond.rhsCol.tabName ∈ tables)

/-- The conditions of a plan are where their tables are. -/
structure CondsPlaced (db : DbMeta) (tables : List String) (plan : Plan) : Prop where
  scans : ∀ s ∈ plan.scans, ∀ c ∈ s.ownConds, Mentions [s.tabName] c
  joins : plan.JoinsOk
  whole : ∀ c ∈ plan.conds, ∃ lhs, CondWhole db tables c lhs

theorem CondsPlaced.children {left right : Plan} {conds : List Condition} (h : CondsPlaced db tables (.join left right conds)) :
    CondsPlaced db tables left ∧ CondsPlaced db tables right ∧ ∀ c ∈ conds, (c.isRhsVal = false ∧
      c.lhsCol.tabName ∈ left.tables ∧ c.rhsCol.tabName ∈ right.tables) ∧ ∃ lhs, CondWhole db tables c lhs := by
  obtain ⟨hl, hr, hc⟩ := h.joins
  have hwhole := h.whole
  simp only [Plan.conds, Plan.scans, Plan.joinConds, List.flatMap_append, List.mem_append] at hwhole
  refine ⟨⟨fun s hs => h.scans s (List.mem_append_left _ hs), hl, fun c hc => hwhole c ?_⟩,
    ⟨fun s hs => h.scans s (List.mem_append_right _ hs), hr, fun c hc => hwhole c ?_⟩,
    fun c hc' => ⟨hc c hc', hwhole c (Or.inr (Or.inr hc'))⟩⟩
  · rcases List.mem_append.mp hc with hc | hc <;> simp [hc]
  · rcases List.mem_append.mp hc with hc | hc <;> simp [hc]

/-- In a scan a condition is evaluated to what the row says. -/
theorem evalCond_scan {plan : Plan} (hplan : PlanOk db plan) {row : Row} (hrow : RowOf db plan row) {cond : Condition}
    (hmentions : Mentions plan.tables cond) {lhs : ColMeta} (hwhole : CondWhole db tables cond lhs) :
    evalCond (planCols db plan) row.bytes cond = .ok (holdsIn db (valueAt row) cond) := by
  obtain ⟨l, hl⟩ := reads_scan hplan hrow hwhole.left hmentions.1
  cases hval : cond.isRhsVal with
  | true =>
    obtain ⟨htype, raw, hraw, hlen⟩ := hwhole.val hval
    obtain ⟨tab, htab, hget⟩ := hwhole.left.found
    have hok : lhs.LenOk := by
      rw [TabMeta.getCol] at hget
      split at hget
      · rename_i c hc
        cases hget
        exact ((hplan.catalog.tabs htab).2.cols _ (List.mem_of_find?_eq_some hc)).2
      · cases hget
    exact hl.evalCond_val hval hok htype hraw hlen
  | false =>
    obtain ⟨rhs, hrhs, htype, hcompares⟩ := hwhole.col hval
    obtain ⟨r, hr⟩ := reads_scan hplan hrow hrhs (hmentions.2 hval)
    exact hl.eval_col hr hval htype hcompares

/-- In a join too. -/
theorem evalJoinCond_join {left right : Plan} (hleft : PlanOk db left) (hright : PlanOk db right)
    (hdis : ∀ t ∈ left.tables, t ∉ right.tables) {a b : Row} (ha : RowOf db left a) (hb : RowOf db right b) {cond : Condition}
    (hval : cond.isRhsVal = false) (hl : cond.lhsCol.tabName ∈ left.tables) (hr : cond.rhsCol.tabName ∈ right.tables)
    {lhs : ColMeta} (hwhole : CondWhole db tables cond lhs) :
    evalJoinCond (planCols db left) (planCols db right) a.bytes b.bytes cond = .ok (holdsIn db (valueAt (a ++ b)) cond) := by
  obtain ⟨rhs, hrhs, htype, hcompares⟩ := hwhole.col hval
  obtain ⟨l, hlreads⟩ := reads_left (b := b) right hleft ha hwhole.left hl
  obtain ⟨r, hrreads⟩ := reads_right hleft hright ha hb hrhs (fun h => hdis _ h hr) hr
  exact hlreads.eval_col hrreads hval htype hcompares

theorem rowOf_of_mem_product {tabRows : String → List Bytes} (hrows : RowsFit db tabRows) {plan : Plan} {row : Row}
    (h : row ∈ product tabRows plan.tables) : RowOf db plan row := by
  obtain ⟨htables, hmem⟩ := mem_product.mp h
  exact ⟨htables, fun e he tab htab => hrows e.1 tab htab e.2 (hmem e he)⟩

/-- A plan only asks about its own tables. -/
theorem CondsPlaced.mentions {plan : Plan} (h : CondsPlaced db tables plan) : ∀ c ∈ plan.conds, Mentions plan.tables c := by
  induction plan with
  | scan tag t conds cols =>
    intro c hc
    have hc : c ∈ conds := by simpa [Plan.conds, Plan.scans, Plan.joinConds, Plan.ownConds] using hc
    exact h.scans _ (List.mem_singleton_self _) c hc
  | join left right conds ihl ihr =>
    obtain ⟨hleft, hright, hconds⟩ := h.children
    have hsplit : ∀ c ∈ (Plan.join left right conds).conds, c ∈ left.conds ∨ c ∈ right.conds ∨ c ∈ conds := by
      intro c hc
      simp only [Plan.conds, Plan.scans, Plan.joinConds, List.flatMap_append, List.mem_append] at hc ⊢
      tauto
    intro c hc
    rw [Plan.tables_join]
    rcases hsplit c hc with hc | hc | hc
    · have hm := ihl hleft c hc
      exact ⟨List.mem_append_left _ hm.1, fun hv => List.mem_append_left _ (hm.2 hv)⟩
    · have hm := ihr hright c hc
      exact ⟨List.mem_append_right _ hm.1, fun hv => List.mem_append_right _ (hm.2 hv)⟩
    · obtain ⟨⟨-, hl, hr⟩, -⟩ := hconds c hc
      exact ⟨List.mem_append_left _ hl, fun _ => List.mem_append_right _ hr⟩

theorem CondsPlaced.all_congr {plan : Plan} (h : CondsPlaced db tables plan) {row row' : String → Option Bytes}
    (heq : ∀ t ∈ plan.tables, row t = row' t) : plan.conds.all (holdsIn db row) = plan.conds.all (holdsIn db row') := by
  rw [Bool.eq_iff_iff, List.all_eq_true, List.all_eq_true]
  refine forall₂_congr ?_
  intro c hc
  obtain ⟨hl, hr⟩ := h.mentions c hc
  rw [holdsIn_congr (heq _ hl) fun hval => heq _ (hr hval)]

theorem map_product {A B A' B' : Type} (f : A → A') (g : B → B') (as : List A) (bs : List B) :
    as.map f ×ˢ bs.map g = (as ×ˢ bs).map (Prod.map f g) := by
  induction as with
  | nil => rfl
  | cons a as ih =>
    rw [List.map_cons, List.product_cons, List.product_cons, ih, List.map_append, List.map_map, List.map_map]
    rfl

theorem filter_product {A : Type} (test : List A → Bool) (as bs : List (List A)) :
    ((as ×ˢ bs).filter fun x => test (x.1 ++ x.2)).map (fun x => x.1 ++ x.2) =
      as.flatMap fun a => (bs.map (a ++ ·)).filter test := by
  induction as with
  | nil => rfl
  | cons a as ih =>
    rw [List.product_cons, List.filter_append, List.map_append, ih, List.flatMap_cons, List.filter_map, List.filter_map,
      List.map_map]
    rfl

theorem all_conds_join (left right : Plan) (conds : List Condition) (test : Condition → Bool) :
    (Plan.join left right conds).conds.all test = (conds.all test && (left.conds.all test && right.conds.all test)) := by
  simp only [Plan.conds, Plan.scans, Plan.joinConds, List.flatMap_append, List.all_append]
  ac_rfl

/-- **What a plan returns** when every condition is where its tables are: the rows of the cross product of its tables that
satisfy its conditions. -/
theorem planRows_eq {tabRows : String → List Bytes} (hrows : RowsFit db tabRows) : ∀ {plan : Plan}, PlanOk db plan →
    CondsPlaced db tables plan →
    planRows db tabRows plan =
      .ok (((product tabRows plan.tables).filter fun row => plan.conds.all (holdsIn db (valueAt row))).map Row.bytes)
  | .scan tag t conds cols, hplan, hconds => by
    have hproduct : product tabRows [t] = (tabRows t).map fun rec => [(t, rec)] := List.flatMap_pure_eq_map _ _
    have hown : (Plan.scan tag t conds cols).conds = conds := by
      simp [Plan.conds, Plan.scans, Plan.joinConds, Plan.ownConds]
    have heval : ∀ rec ∈ tabRows t, evalConds (planCols db (.scan tag t conds cols)) rec conds =
        .ok (conds.all (holdsIn db (valueAt [(t, rec)]))) := by
      intro rec hrec
      have hrow : RowOf db (.scan tag t conds cols) [(t, rec)] := rowOf_of_mem_product hrows (by
        rw [Plan.tables_scan, hproduct]
        exact List.mem_map_of_mem hrec)
      have hbytes : Row.bytes [(t, rec)] = rec := List.flatMap_singleton ..
      refine evalConds_of_eval ?_
      intro c hc
      have hmem : c ∈ (Plan.scan tag t conds cols).conds := by rwa [hown]
      obtain ⟨lhs, hwhole⟩ := hconds.whole c hmem
      have hc := evalCond_scan hplan hrow (hconds.mentions c hmem) hwhole
      rwa [hbytes] at hc
    have hfilter := filterE_map id (evalConds (planCols db (.scan tag t conds cols)) · conds) heval
    rw [List.map_id, List.map_id] at hfilter
    rw [planRows, hfilter, Plan.tables_scan, hproduct, hown, List.filter_map, List.map_map]
    refine congrArg Except.ok (List.map_id _ |>.symm.trans (List.map_congr_left ?_))
    intro rec _
    exact (List.flatMap_singleton ..).symm
  | .join left right conds, hplan, hconds => by
    obtain ⟨hleft, hright, hdis⟩ := hplan.children
    obtain ⟨hlconds, hrconds, hown⟩ := hconds.children
    let L : List Row := (product tabRows left.tables).filter fun row => left.conds.all (holdsIn db (valueAt row))
    let R : List Row := (product tabRows right.tables).filter fun row => right.conds.all (holdsIn db (valueAt row))
    have hL : ∀ a ∈ L, RowOf db left a := fun a ha => rowOf_of_mem_product hrows (List.mem_of_mem_filter ha)
    have hR : ∀ b ∈ R, RowOf db right b := fun b hb => rowOf_of_mem_product hrows (List.mem_of_mem_filter hb)
    have heval : ∀ x ∈ L ×ˢ R, evalJoinConds (planCols db left) (planCols db right) x.1.bytes x.2.bytes conds =
        .ok (conds.all (holdsIn db (valueAt (x.1 ++ x.2)))) := by
      rintro ⟨a, b⟩ hx
      obtain ⟨ha, hb⟩ := List.mem_product.mp hx
      refine evalJoinConds_of_eval ?_
      intro c hc
      obtain ⟨⟨hval, hl, hr⟩, lhs, hwhole⟩ := hown c hc
      exact evalJoinCond_join hleft hright hdis (hL a ha) (hR b hb) hval hl hr hwhole
    have hfilter := filterE_map (Prod.map Row.bytes Row.bytes)
      (fun x => evalJoinConds (planCols db left) (planCols db right) x.1 x.2 conds) heval
    rw [← map_product] at hfilter
    rw [planRows, planRows_eq hrows hleft hlconds, planRows_eq hrows hright hrconds]
    simp only [bind, Except.bind]
    rw [hfilter]
    have hsplit := filter_product_append tabRows (A := left.tables) (B := right.tables)
      (p := fun row => left.conds.all (holdsIn db (valueAt row))) (q := fun row => right.conds.all (holdsIn db (valueAt row)))
      (r := fun row => conds.all (holdsIn db (valueAt row)))
      (fun a ha b _ => hlconds.all_congr fun t ht => valueAt_append_left ((rowOf_of_mem_product hrows ha).tables ▸ ht))
      (fun a ha b _ => hrconds.all_congr fun t ht => valueAt_append_right fun h =>
        hdis t ((rowOf_of_mem_product hrows ha).tables ▸ h) ht)
    rw [Plan.tables_join]
    simp only [all_conds_join]
    rw [hsplit, ← filter_product, List.map_map, List.map_map]
    refine congrArg Except.ok (List.map_congr_left ?_)
    intro x hx
    obtain ⟨ha, hb⟩ := List.mem_product.mp (List.mem_of_mem_filter (show (x.1, x.2) ∈ _ from hx))
    have hla := (hL x.1 ha).length_bytes hleft
    have hlb := (hR x.2 hb).length_bytes hright
    simp only [Function.comp_apply, Prod.map_fst, Prod.map_snd]
    rw [← hla, ← hlb, List.take_length, List.take_length, ← Row.bytes_append]

end Rows

/-! ### The join executor -/

section Join

variable {db : DbMeta} {S T : Type} {left : Executor S} {right : Executor T} {IL : S → Prop} {IR : T → Prop}

/-- What the constructor of the join executor of a plan sets. -/
def planParams (db : DbMeta) (left right : Plan) (conds : List Condition) : JoinParams where
  leftCols := planCols db left
  rightCols := planCols db right
  leftLen := planLen db left
  rightLen := planLen db right
  fedConds := conds
  leftBlockCapacity := blockCapacity (planLen db left)

theorem exists_of_filterE {A : Type} {test : A → Except RMDBError Bool} : ∀ {as out : List A}, filterE test as = .ok out →
    ∀ a ∈ as, ∃ b, test a = .ok b
  | [], _, _ => by simp
  | a :: as, out, h => by
    obtain ⟨b, hb, h⟩ := Analyze.bind_eq_ok h
    obtain ⟨rest, hrest, -⟩ := Analyze.bind_eq_ok h
    exact List.forall_mem_cons.mpr ⟨⟨b, hb⟩, exists_of_filterE hrest⟩

/-- **The rows of a join plan** are those of a `NestedLoopJoinExecutor` over children that enumerate the rows of the two
sides. -/
theorem enumerates_planJoin {tabRows : String → List Bytes} {l r : Plan} {conds : List Condition} {L R out : List Bytes}
    (hl : planRows db tabRows l = .ok L) (hr : planRows db tabRows r = .ok R)
    (hout : planRows db tabRows (.join l r conds) = .ok out) (hleft : left.Enumerates IL L) (hright : right.Enumerates IR R) :
    ∃ rows, rows.Perm out ∧ ∃ N, ∀ rounds ≥ N, ∃ I, (∀ s t, IL s → IR t → I (joinInit s t)) ∧
      (nestedLoopJoin (planParams db l r conds) left right rounds).Enumerates I rows := by
  rw [planRows, hl, hr] at hout
  simp only [Except.bind, bind] at hout
  obtain ⟨pairs, hpairs, hout⟩ := Analyze.bind_eq_ok hout
  obtain rfl := Except.ok.inj hout
  let test (a b : Bytes) : Except RMDBError Bool := evalJoinConds (planCols db l) (planCols db r) a b conds
  -- the value of the conditions, which has been computed for all pairs of rows
  let holds (a b : Bytes) : Bool := (test a b).toOption.getD false
  have hconds : ∀ x ∈ L ×ˢ R, test x.1 x.2 = .ok (holds x.1 x.2) := fun x hx => by
    obtain ⟨v, hv⟩ := exists_of_filterE hpairs x hx
    have hv : test x.1 x.2 = .ok v := hv
    simp only [holds, hv]
    rfl
  have hchildren : JoinChildren (planParams db l r conds) left right IL IR L R holds :=
    ⟨hleft, hright, fun a ha b hb => hconds (a, b) (List.mem_product.mpr ⟨ha, hb⟩),
      Nat.lt_of_lt_of_le Nat.zero_lt_one (le_max_left _ _)⟩
  have hfilter := filterE_map id (fun x : Bytes × Bytes => test x.1 x.2) hconds
  rw [List.map_id, List.map_id] at hfilter
  obtain rfl := Except.ok.inj (hpairs.symm.trans hfilter)
  obtain ⟨rows, hrows⟩ : ∃ rows, JoinRows (planParams db l r conds) holds R L rows :=
    exists_joinRows hchildren.capacity R L.length L (le_refl _)
  refine ⟨rows, ?_, L.length + R.length + 1, fun rounds hrounds =>
    ⟨_, fun s t hs ht => ⟨hs, ht, .inr (.inl rfl)⟩, enumerates_join hchildren (by omega) (by omega) hrows⟩⟩
  rw [← Multiset.coe_eq_coe, hrows.coe_eq, productRows, Multiset.coe_product, Multiset.filter_coe, Multiset.map_coe]
  simp only [Bool.decide_eq_true]
  rfl

end Join

end Rmdb.Execution
