import Rmdb.Execution.Aggregate

/-!
# The plan of a `SELECT`

Above the scans and joins of a `SELECT` stands a sort, if there is an `ORDER BY`, or else a limit, if
there is a `LIMIT`; the sort has the limit in it. Above that stands an aggregate or a projection. The
literal of a `LIMIT` has 64 bits, and the parser narrows it to an `int`. So a limit cuts the rows
before they are aggregated, and one that does not fit is another one, or none (`limit_iff`).

The scans and joins are an executor that enumerates some rows. `std::sort` is a parameter: it puts
the rows into some order, which depends on the rows and on the comparison.
-/

namespace Rmdb.Execution

open Lib

/-- `std::sort`. -/
structure StdSort where
  /-- The rows in order, by a comparison. -/
  sort : (Bytes → Bytes → Bool) → List Bytes → List Bytes
  /-- They are the same rows. -/
  perm : ∀ less rows, (sort less rows).Perm rows

/-! ### `LimitExecutor` -/

/-- The state of a limit, with the state of its child. -/
structure LimitState (S : Type) where
  /-- `prev_`. -/
  prev : S
  /-- `count_`. -/
  count : ℤ

/-- `LimitExecutor::is_end`. -/
def limitEnd {S : Type} (prev : Executor S) (limit : ℤ) (s : LimitState S) : Bool :=
  if 0 ≤ limit ∧ limit ≤ s.count then true else prev.isEnd s.prev

/-- `LimitExecutor`. -/
def limitExecutor {S : Type} (prev : Executor S) (limit : ℤ) : Executor (LimitState S) where
  isEnd := limitEnd prev limit
  read s := if limitEnd prev limit s then .ok none else prev.read s.prev
  next s :=
    if limitEnd prev limit s then .ok s
    else do
      let prevState ← prev.next s.prev
      .ok ⟨prevState, s.count + 1⟩
  start s := do
    let prevState ← prev.start s.prev
    .ok ⟨prevState, 0⟩

/-! ### `SortExecutor` -/

/-- `compare_col`. -/
def sortCompareCol (col : ColMeta) (a b : Bytes) : ℤ :=
  let lhs := a.drop col.offset
  let rhs := b.drop col.offset
  match col.type with
  | .int => sign3 (leInt 4 lhs) (leInt 4 rhs)
  | .float => compareFloat lhs rhs
  | .bigint | .datetime => sign3 (leInt 8 lhs) (leInt 8 rhs)
  | .string => memcmp col.len lhs rhs

/-- The comparison of rows: the first column that decides. -/
def sortLess : List (ColMeta × Bool) → Bytes → Bytes → Bool
  | [], _, _ => false
  | (col, isDesc) :: cols, a, b =>
    let cmp := sortCompareCol col a b
    if cmp = 0 then sortLess cols a b else if isDesc then 0 < cmp else cmp < 0

/-- `ORDER BY` compares a column as conditions and indexes do. -/
theorem sortCompareCol_eq (col : ColMeta) (a b : Bytes) :
    sortCompareCol col a b = compareCol col.type col.len (a.drop col.offset) (b.drop col.offset) := by
  obtain ⟨tabName, name, type, len, offset⟩ := col
  cases type <;> rfl

/-- The state of a sort, with the state of its child. -/
structure SortState (S : Type) where
  /-- `prev_`. -/
  prev : S
  /-- `cursor_`. -/
  cursor : ℕ
  /-- `tuples_`. -/
  tuples : List Bytes

/-- `tuples_` after the sort. -/
def sortedTuples (std : StdSort) (sortCols : List (ColMeta × Bool)) (limit : ℤ) (tuples : List Bytes) : List Bytes :=
  let tuples := std.sort (sortLess sortCols) tuples
  if 0 ≤ limit ∧ limit < tuples.length then tuples.take limit.toNat else tuples

/-- `SortExecutor`. -/
def sortExecutor {S : Type} (std : StdSort) (prev : Executor S) (sortCols : List (ColMeta × Bool)) (limit : ℤ) (rounds : ℕ) :
    Executor (SortState S) where
  isEnd s := s.tuples.length ≤ s.cursor
  read s := .ok (s.tuples[s.cursor]?)
  next s := .ok (if s.tuples.length ≤ s.cursor then s else { s with cursor := s.cursor + 1 })
  start s := do
    let prevState ← prev.start s.prev
    let push (tuples : List Bytes) (rec : Option Bytes) : Except RMDBError (List Bytes) :=
      match rec with
      | some rec => .ok (tuples ++ [rec])
      | none => .error .assertion
    let (prevState, tuples) ← prev.fold .assertion push rounds prevState []
    .ok ⟨prevState, 0, sortedTuples std sortCols limit tuples⟩

/-! ### `ProjectionExecutor` -/

/-- The columns of a projection, from an offset on. -/
def projectionCols : ℕ → List ColMeta → List ColMeta
  | _, [] => []
  | offset, col :: cols => { col with offset := offset } :: projectionCols (offset + col.len) cols

/-- The row of a projection: the columns one behind the other. -/
def projectRow (selCols : List ColMeta) (rec : Bytes) : Bytes := selCols.flatMap (·.read rec)

/-- `ProjectionExecutor`. -/
def projectionExecutor {S : Type} (prev : Executor S) (selCols : List ColMeta) : Executor S where
  isEnd := prev.isEnd
  read s := (prev.read s).map fun rec => rec.map (projectRow selCols)
  next := prev.next
  start := prev.start

/-! ### The plan -/

/-- A `SELECT`, with its names resolved. -/
structure SelectQuery where
  /-- `query->cols`. -/
  cols : List TabCol
  /-- The columns of the `ORDER BY`, each with whether it is descending. -/
  order : Option (List (TabCol × Bool))
  /-- The aggregates. -/
  aggs : List AggCall
  /-- `limit`; `-1` for none. -/
  limit : Int32

/-- The plan of a `SELECT`. -/
inductive SelectPlan where
  /-- What `make_one_rel` returns. -/
  | rel
  /-- `SortPlan`. -/
  | sort (sub : SelectPlan) (items : List (TabCol × Bool)) (limit : Int32)
  /-- `LimitPlan`. -/
  | limit (sub : SelectPlan) (limit : Int32)
  /-- `AggregatePlan`. -/
  | aggregate (sub : SelectPlan) (aggs : List AggCall)
  /-- `ProjectionPlan`. -/
  | projection (sub : SelectPlan) (cols : List TabCol)

/-- `generate_sort_plan`. -/
def generateSortPlan (q : SelectQuery) (plan : SelectPlan) : SelectPlan :=
  match q.order with
  | none => plan
  | some items => .sort plan items q.limit

/-- `physical_optimization`. -/
def physicalOptimization (q : SelectQuery) : SelectPlan :=
  let plan := generateSortPlan q .rel
  if q.order.isNone ∧ 0 ≤ q.limit then .limit plan q.limit else plan

/-- `generate_select_plan`. -/
def generateSelectPlan (q : SelectQuery) : SelectPlan :=
  let plan := physicalOptimization q
  if q.aggs ≠ [] then .aggregate plan q.aggs else .projection plan q.cols

/-- An executor with its columns and the state that its constructor sets. -/
structure ExecutorTree where
  /-- The type of its states. -/
  State : Type
  /-- The executor. -/
  exec : Executor State
  /-- `cols()`. -/
  cols : List ColMeta
  /-- The state that the constructor sets. -/
  init : State

/-- The columns of the given names. -/
def getCols (cols : List ColMeta) (targets : List TabCol) : Except RMDBError (List ColMeta) := targets.mapM (getCol cols)

/-- `convert_plan_executor`, with the executor of the scans and joins. -/
def convertPlanExecutor (D : DoubleOps) (std : StdSort) (rounds : ℕ) (rel : ExecutorTree) : SelectPlan → Except RMDBError ExecutorTree
  | .rel => .ok rel
  | .sort sub items limit =>
    match convertPlanExecutor D std rounds rel sub with
    | .error e => .error e
    | .ok prev =>
      match getCols prev.cols (items.map (·.1)) with
      | .error e => .error e
      | .ok sortCols =>
        .ok ⟨SortState prev.State, sortExecutor std prev.exec (sortCols.zip (items.map (·.2))) limit.toInt rounds, prev.cols,
          ⟨prev.init, 0, []⟩⟩
  | .limit sub limit =>
    match convertPlanExecutor D std rounds rel sub with
    | .error e => .error e
    | .ok prev => .ok ⟨LimitState prev.State, limitExecutor prev.exec limit.toInt, prev.cols, ⟨prev.init, 0⟩⟩
  | .aggregate sub aggs =>
    match convertPlanExecutor D std rounds rel sub with
    | .error e => .error e
    | .ok prev =>
      match aggCols prev.cols 0 aggs with
      | .error e => .error e
      | .ok cols =>
        .ok ⟨AggregateState prev.State, aggregate D prev.cols prev.exec aggs cols rounds, cols, ⟨prev.init, none, false, false⟩⟩
  | .projection sub selCols =>
    match convertPlanExecutor D std rounds rel sub with
    | .error e => .error e
    | .ok prev =>
      match getCols prev.cols selCols with
      | .error e => .error e
      | .ok cols => .ok ⟨prev.State, projectionExecutor prev.exec cols, projectionCols 0 cols, prev.init⟩

/-- **The rows that are produced** for a `SELECT` by its plan. -/
def Produces (D : DoubleOps) (std : StdSort) (rel : ExecutorTree) (q : SelectQuery) (rows : List Bytes) : Prop :=
  ∃ N, ∀ rounds ≥ N, ∃ tree, convertPlanExecutor D std rounds rel (generateSelectPlan q) = .ok tree ∧
    tree.exec.all .assertion rounds tree.init = .ok (rows.map some)

/-! ### What the executors enumerate -/

section Enumerates

variable {S : Type} {prev : Executor S} {I : S → Prop} {rows : List Bytes}

/-- The first elements of a list, or all of them. -/
def takeUpTo {α : Type} : Option ℕ → List α → List α
  | none, l => l
  | some n, l => l.take n

/-- **A limit** enumerates the first rows. -/
theorem enumerates_limit (h : prev.Enumerates I rows) {limit : ℤ} (hlimit : 0 ≤ limit) :
    (limitExecutor prev limit).Enumerates (fun s => I s.prev) (rows.take limit.toNat) where
  start s hs := by
    obtain ⟨s', hstart, hs', hyields⟩ := h.start s.prev hs
    refine ⟨⟨s', 0⟩, ?_, hs', ?_⟩
    · simp only [limitExecutor, hstart, bind, Except.bind]
    -- After `k` rows the child has the others left.
    refine Cursor.Yields.of_sim (P := fun s rest => ∃ (k : ℕ) (more : List Bytes), s.count = (k : ℤ) ∧ (k : ℤ) ≤ limit ∧
      prev.Yields s.prev (more.map some) ∧ rest = (more.take (limit.toNat - k)).map some) ?_ ?_
      ⟨0, rows, rfl, hlimit, hyields, by rw [Nat.sub_zero]⟩
    · rintro s ⟨k, more, hcount, hk, hyields, hrest⟩
      simp only [limitExecutor, limitEnd, hcount]
      split
      · rfl
      · rename_i hlt
        have hmore : more = [] := by
          have hnil := List.map_eq_nil_iff.mp hrest.symm
          rcases List.take_eq_nil_iff.mp hnil with hzero | hnil
          · omega
          · exact hnil
        rw [hmore] at hyields
        exact Cursor.yields_nil.mp hyields
    · rintro s r rest ⟨k, more, hcount, hk, hyields, hrest⟩
      obtain ⟨rec, more', hmore, rfl, rfl⟩ := List.map_eq_cons_iff.mp hrest.symm
      rcases more with _ | ⟨rec', more⟩
      · rw [List.take_nil] at hmore
        cases hmore
      obtain ⟨m, hm⟩ : ∃ m, limit.toNat - k = m + 1 := by
        refine Nat.exists_eq_succ_of_ne_zero ?_
        intro hzero
        rw [hzero, List.take_zero] at hmore
        cases hmore
      rw [hm, List.take_succ_cons] at hmore
      obtain ⟨rfl, rfl⟩ := List.cons.inj hmore
      obtain ⟨hgo, hread, s', hnext, hyields'⟩ := Cursor.yields_cons.mp hyields
      have hend : limitEnd prev limit s = false := by
        rw [limitEnd, if_neg (by rw [hcount]; omega)]
        exact hgo
      refine ⟨hend, ?_, ⟨s', s.count + 1⟩, ?_, k + 1, more, ?_, by omega, hyields', ?_⟩
      · simp only [limitExecutor, hend, Bool.false_eq_true, if_false, hread]
      · simp only [limitExecutor, hend, Bool.false_eq_true, if_false, hnext, bind, Except.bind]
      · rw [hcount, Nat.cast_add, Nat.cast_one]
      · rw [show limit.toNat - (k + 1) = m by omega]
  next s s' hs hgo hnext := by
    have hend : limitEnd prev limit s = false := hgo
    have hgo' : prev.isEnd s.prev = false := by
      rw [limitEnd] at hend
      split at hend
      · cases hend
      · exact hend
    simp only [limitExecutor, hend, Bool.false_eq_true, if_false] at hnext
    rcases hprev : prev.next s.prev with e | s₁
    · rw [hprev] at hnext
      cases hnext
    · rw [hprev] at hnext
      cases hnext
      exact h.next _ _ hs hgo' hprev

/-- **A sort** enumerates the rows in order. -/
theorem enumerates_sort (std : StdSort) (h : prev.Enumerates I rows) (sortCols : List (ColMeta × Bool)) (limit : ℤ) {rounds : ℕ}
    (hrounds : rows.length < rounds) :
    (sortExecutor std prev sortCols limit rounds).Enumerates (fun s => I s.prev) (sortedTuples std sortCols limit rows) where
  start s hs := by
    have hpush : ∀ (more done : List Bytes), (more.map some).foldlM (fun (tuples : List Bytes) (rec : Option Bytes) =>
        match rec with
        | some rec => (.ok (tuples ++ [rec]) : Except RMDBError (List Bytes))
        | none => .error .assertion) done = .ok (done ++ more) := by
      intro more
      induction more with
      | nil => exact fun done => by rw [List.append_nil]; rfl
      | cons rec more ih => exact fun done => (ih (done ++ [rec])).trans (by rw [List.append_assoc]; rfl)
    obtain ⟨s₁, s', hstart, hloop, hs'⟩ := h.start_fold_eq .assertion hs (by rwa [List.length_map]) (hpush rows [])
    rw [List.nil_append] at hloop
    refine ⟨⟨s', 0, sortedTuples std sortCols limit rows⟩, ?_, hs', ?_⟩
    · simp only [sortExecutor, hstart, hloop, bind, Except.bind]
    refine Cursor.Yields.of_sim (P := fun s rest => (s.tuples.drop s.cursor).map some = rest) ?_ ?_ rfl
    · rintro s hrest
      exact decide_eq_true (List.drop_eq_nil_iff.mp (List.map_eq_nil_iff.mp hrest))
    · rintro s r rest hrest
      have hlt : s.cursor < s.tuples.length := by
        rw [← Nat.not_le, ← List.drop_eq_nil_iff, ← List.map_eq_nil_iff (f := some), hrest]
        exact List.cons_ne_nil _ _
      rw [List.drop_eq_getElem_cons hlt] at hrest
      obtain ⟨hr, hrest⟩ := List.cons.inj hrest
      refine ⟨decide_eq_false (Nat.not_le.mpr hlt), ?_, { s with cursor := s.cursor + 1 }, ?_, hrest⟩
      · simp only [sortExecutor, List.getElem?_eq_getElem hlt, hr]
      · simp only [sortExecutor, if_neg (Nat.not_le.mpr hlt)]
  next s s' hs hgo hnext := by
    have hlt : ¬ s.tuples.length ≤ s.cursor := of_decide_eq_false hgo
    simp only [sortExecutor, if_neg hlt] at hnext
    cases hnext
    exact hs

/-- **A projection** enumerates the projected rows. -/
theorem enumerates_projection (h : prev.Enumerates I rows) (selCols : List ColMeta) :
    (projectionExecutor prev selCols).Enumerates I (rows.map (projectRow selCols)) where
  start s hs := by
    obtain ⟨s', hstart, hs', hyields⟩ := h.start s hs
    refine ⟨s', hstart, hs', ?_⟩
    refine Cursor.Yields.of_sim (P := fun s rest => ∃ more, prev.Yields s (more.map some) ∧
      rest = (more.map (projectRow selCols)).map some) ?_ ?_ ⟨rows, hyields, rfl⟩
    · rintro s ⟨more, hyields, hrest⟩
      rw [List.map_eq_nil_iff.mp (List.map_eq_nil_iff.mp hrest.symm)] at hyields
      exact (Cursor.yields_nil (c := prev.toCursor)).mp hyields
    · rintro s r rest ⟨more, hyields, hrest⟩
      rcases more with _ | ⟨rec, more⟩
      · cases hrest
      · obtain ⟨hgo, hread, s', hnext, hyields'⟩ := Cursor.yields_cons.mp hyields
        cases hrest
        refine ⟨hgo, ?_, s', hnext, more, hyields', rfl⟩
        simp only [projectionExecutor, hread]
        rfl
  next s s' hs hgo hnext := h.next s s' hs hgo hnext

end Enumerates

/-! ### The rows of a `SELECT` -/

/-- The limit that the plan has: none if the `int` is negative. -/
def limitOf (limit : Int32) : Option ℕ := if 0 ≤ limit then some limit.toInt.toNat else none

/-- The rows in the order of the `ORDER BY`. -/
def orderedRows (std : StdSort) (sortCols : Option (List (ColMeta × Bool))) (rows : List Bytes) : List Bytes :=
  match sortCols with
  | some cols => std.sort (sortLess cols) rows
  | none => rows

/-- A `SELECT` whose columns are there, and what they are. -/
structure QueryOk (cols : List ColMeta) (q : SelectQuery) (sortCols : Option (List (ColMeta × Bool))) (outCols : List ColMeta) :
    Prop where
  order : (q.order = none ∧ sortCols = none) ∨
    ∃ items found, q.order = some items ∧ getCols cols (items.map (·.1)) = .ok found ∧ sortCols = some (found.zip (items.map (·.2)))
  projection : q.aggs = [] → getCols cols q.cols = .ok outCols
  aggregate : q.aggs ≠ [] → aggCols cols 0 q.aggs = .ok outCols
  sums : SumsOk cols q.aggs

section Rows

variable {D : DoubleOps} {std : StdSort} {rel : ExecutorTree} {I : rel.State → Prop} {baseRows rows : List Bytes}
  {q : SelectQuery} {sortCols : Option (List (ColMeta × Bool))} {outCols : List ColMeta}

theorem orderedRows_perm (std : StdSort) (sortCols : Option (List (ColMeta × Bool))) (rows : List Bytes) :
    (orderedRows std sortCols rows).Perm rows := by
  cases sortCols with
  | none => exact List.Perm.refl rows
  | some cols => exact std.perm _ _

theorem zero_le_toInt {limit : Int32} : 0 ≤ limit ↔ 0 ≤ limit.toInt := by
  rw [Int32.le_iff_toInt_le]
  rfl

theorem sortedTuples_eq (cols : List (ColMeta × Bool)) (limit : Int32) (rows : List Bytes) :
    sortedTuples std cols limit.toInt rows = takeUpTo (limitOf limit) (std.sort (sortLess cols) rows) := by
  simp only [sortedTuples, limitOf, zero_le_toInt]
  by_cases hlimit : 0 ≤ limit.toInt
  · rw [if_pos hlimit, takeUpTo]
    split
    · rfl
    · exact (List.take_of_length_le (by omega)).symm
  · rw [if_neg hlimit, if_neg fun h => hlimit h.1, takeUpTo]

/-- **The rows below the aggregate or the projection.** -/
theorem physicalOptimization_rows (D : DoubleOps) (std : StdSort) (hrel : rel.exec.Enumerates I baseRows) (hinit : I rel.init)
    (hq : QueryOk rel.cols q sortCols outCols) (rounds : ℕ) (hrounds : baseRows.length < rounds) :
    ∃ tree, convertPlanExecutor D std rounds rel (physicalOptimization q) = .ok tree ∧ tree.cols = rel.cols ∧
      ∃ J : tree.State → Prop, J tree.init ∧
        tree.exec.Enumerates J (takeUpTo (limitOf q.limit) (orderedRows std sortCols baseRows)) := by
  rcases hq.order with ⟨horder, rfl⟩ | ⟨items, found, horder, hfound, rfl⟩
  · rw [physicalOptimization, generateSortPlan, horder]
    by_cases hlimit : 0 ≤ q.limit
    · rw [if_pos ⟨rfl, hlimit⟩, limitOf, if_pos hlimit]
      exact ⟨_, rfl, rfl, fun s => I s.prev, hinit, enumerates_limit hrel (zero_le_toInt.mp hlimit)⟩
    · rw [if_neg fun h => hlimit h.2, limitOf, if_neg hlimit]
      exact ⟨rel, rfl, rfl, I, hinit, hrel⟩
  · rw [physicalOptimization, generateSortPlan, horder, if_neg fun h => by cases h.1]
    simp only [convertPlanExecutor, hfound]
    refine ⟨_, rfl, rfl, fun s => I s.prev, hinit, ?_⟩
    rw [orderedRows, ← sortedTuples_eq]
    exact enumerates_sort std hrel _ _ hrounds

theorem mem_of_mem_takeUpTo {α : Type} {n : Option ℕ} {l : List α} {x : α} (h : x ∈ takeUpTo n l) : x ∈ l := by
  cases n with
  | none => exact h
  | some n => exact List.mem_of_mem_take h

theorem length_takeUpTo_le {α : Type} (n : Option ℕ) (l : List α) : (takeUpTo n l).length ≤ l.length := by
  cases n with
  | none => exact le_refl _
  | some n => exact List.length_take_le' n l

/-- **A projection produces** the rows up to the limit, projected. -/
theorem produces_projection (D : DoubleOps) (std : StdSort) (hrel : rel.exec.Enumerates I baseRows) (hinit : I rel.init) (hq : QueryOk rel.cols q sortCols outCols)
    (haggs : q.aggs = []) :
    Produces D std rel q ((takeUpTo (limitOf q.limit) (orderedRows std sortCols baseRows)).map (projectRow outCols)) := by
  refine ⟨baseRows.length + 1, ?_⟩
  intro rounds hrounds
  obtain ⟨tree, htree, hcols, J, hJ, henum⟩ := physicalOptimization_rows D std hrel hinit hq rounds hrounds
  rw [generateSelectPlan, if_neg (not_not.mpr haggs)]
  simp only [convertPlanExecutor, htree, hcols, hq.projection haggs]
  refine ⟨_, rfl, (enumerates_projection henum outCols).all_eq hJ ?_⟩
  have hle := length_takeUpTo_le (limitOf q.limit) (orderedRows std sortCols baseRows)
  rw [(orderedRows_perm std sortCols baseRows).length_eq] at hle
  rw [List.length_map, List.length_map]
  omega

/-- **An aggregate produces** the row of the rows up to the limit. -/
theorem produces_aggregate (D : DoubleOps) (std : StdSort) (hrel : rel.exec.Enumerates I baseRows) (hinit : I rel.init) (hq : QueryOk rel.cols q sortCols outCols)
    (haggs : q.aggs ≠ []) {res : Bytes}
    (hres : aggResult D rel.cols q.aggs outCols (takeUpTo (limitOf q.limit) (orderedRows std sortCols baseRows)) = .ok res) :
    Produces D std rel q [res] := by
  refine ⟨baseRows.length + 2, ?_⟩
  intro rounds hrounds
  obtain ⟨tree, htree, hcols, J, hJ, henum⟩ := physicalOptimization_rows D std hrel hinit hq rounds (by omega)
  have hle := length_takeUpTo_le (limitOf q.limit) (orderedRows std sortCols baseRows)
  rw [(orderedRows_perm std sortCols baseRows).length_eq] at hle
  rw [generateSelectPlan, if_pos haggs]
  simp only [convertPlanExecutor, htree, hcols, hq.aggregate haggs]
  refine ⟨_, rfl, (enumerates_aggregate hres henum (by omega)).all_eq hJ ?_⟩
  rw [List.length_map, List.length_singleton]
  omega

/-- The rows that are produced are determined. -/
theorem Produces.unique {rows' : List Bytes} (h : Produces D std rel q rows) (h' : Produces D std rel q rows') : rows = rows' := by
  obtain ⟨N, hN⟩ := h
  obtain ⟨N', hN'⟩ := h'
  obtain ⟨tree, htree, hall⟩ := hN (max N N') (le_max_left _ _)
  obtain ⟨tree', htree', hall'⟩ := hN' (max N N') (le_max_right _ _)
  cases htree.symm.trans htree'
  exact (List.map_injective_iff.mpr (Option.some_injective _)) (Except.ok.inj (hall.symm.trans hall'))

/-- The literal of a `LIMIT` is its own `int` if it fits. -/
theorem limitOf_toInt32 {n : Int64} (hn : 0 ≤ n.toInt) (hlt : n.toInt < 2 ^ 31) : limitOf n.toInt32 = some n.toInt.toNat := by
  have hint : n.toInt32.toInt = n.toInt := by
    rw [Int64.toInt_toInt32]
    exact Int.bmod_eq_of_le (by omega) (by omega)
  rw [limitOf, if_pos (zero_le_toInt.mpr (by rwa [hint])), hint]

/-- A limit that does not fit is less than its literal. -/
theorem limitOf_getD_lt {n : Int64} (hn : 2 ^ 31 ≤ n.toInt) : ∀ m ∈ limitOf n.toInt32, m < n.toInt.toNat := by
  intro m hm
  rw [limitOf] at hm
  split at hm
  · cases hm
    have hlt := Int32.toInt_lt n.toInt32
    omega
  · cases hm

/-- **`LIMIT n`** returns the first `n` rows that the query returns without it. -/
def LimitCorrect (D : DoubleOps) (std : StdSort) (rel : ExecutorTree) (q : SelectQuery) (n : Int64) : Prop :=
  ∃ rows, Produces D std rel { q with limit := -1 } rows ∧
    Produces D std rel { q with limit := n.toInt32 } (rows.take n.toInt.toNat)

theorem QueryOk.withLimit (hq : QueryOk rel.cols q sortCols outCols) (limit : Int32) :
    QueryOk rel.cols { q with limit := limit } sortCols outCols :=
  ⟨hq.order, hq.projection, hq.aggregate, hq.sums⟩

theorem limitCorrect_iff_of_produces {rows' : List Bytes} {n : Int64} (h : Produces D std rel { q with limit := -1 } rows)
    (h' : Produces D std rel { q with limit := n.toInt32 } rows') : LimitCorrect D std rel q n ↔ rows' = rows.take n.toInt.toNat := by
  constructor
  · rintro ⟨all, hall, hlimit⟩
    cases hall.unique h
    exact h'.unique hlimit
  · intro heq
    exact ⟨rows, h, heq ▸ h'⟩

/-- **When `LIMIT n` is right**: without aggregates, if `n` is an `int`, or if there are no more rows than the `int` that is
made of it; with aggregates, if `n` is not 0 and the aggregates have the same values over the rows up to the limit. -/
theorem limit_iff (D : DoubleOps) (std : StdSort) (hrel : rel.exec.Enumerates I baseRows) (hinit : I rel.init)
    (hrows : ∀ rec ∈ baseRows, RecOk rel.cols rec) (hcols : ∀ col ∈ rel.cols, ValueCol col.shape)
    (hq : QueryOk rel.cols q sortCols outCols) {n : Int64} (hn : 0 ≤ n.toInt) :
    LimitCorrect D std rel q n ↔
      if q.aggs = [] then n.toInt < 2 ^ 31 ∨ baseRows.length ≤ (limitOf n.toInt32).getD n.toInt.toNat
      else 0 < n.toInt ∧ ∀ agg ∈ q.aggs,
        aggValue D rel.cols (takeUpTo (limitOf n.toInt32) (orderedRows std sortCols baseRows)) agg =
          aggValue D rel.cols (orderedRows std sortCols baseRows) agg := by
  have hperm := orderedRows_perm std sortCols baseRows
  split
  · rename_i haggs
    have hall := produces_projection D std hrel hinit (hq.withLimit (-1)) haggs
    have hcut := produces_projection D std hrel hinit (hq.withLimit n.toInt32) haggs
    rw [limitCorrect_iff_of_produces hall hcut, show limitOf (-1) = none from rfl, takeUpTo, ← List.map_take]
    rcases lt_or_ge n.toInt (2 ^ 31) with hlt | hge
    · rw [limitOf_toInt32 hn hlt, takeUpTo]
      exact iff_of_true rfl (.inl hlt)
    · have hless := limitOf_getD_lt hge
      rw [or_iff_right (not_lt.mpr hge), ← hperm.length_eq]
      rcases hlimit : limitOf n.toInt32 with _ | m
      · rw [takeUpTo, Option.getD_none, List.map_take, eq_comm, List.take_eq_self_iff, List.length_map]
      · have hm := hless m hlimit
        rw [takeUpTo, Option.getD_some, List.map_take, List.map_take, List.take_eq_take_iff, List.length_map]
        omega
  · rename_i haggs
    have hrows' : ∀ rec ∈ orderedRows std sortCols baseRows, RecOk rel.cols rec := fun rec hrec =>
      hrows rec (hperm.mem_iff.mp hrec)
    have hrowsCut : ∀ rec ∈ takeUpTo (limitOf n.toInt32) (orderedRows std sortCols baseRows), RecOk rel.cols rec :=
      fun rec hrec => hrows' rec (mem_of_mem_takeUpTo hrec)
    have hres := aggResult_eq D (hq.aggregate haggs) hq.sums hcols hrows'
    have hresCut := aggResult_eq D (hq.aggregate haggs) hq.sums hcols hrowsCut
    have hall := produces_aggregate D std hrel hinit (hq.withLimit (-1)) haggs hres
    have hcut := produces_aggregate D std hrel hinit (hq.withLimit n.toInt32) haggs hresCut
    rw [limitCorrect_iff_of_produces hall hcut, ← aggResult_eq_iff D (hq.aggregate haggs) hq.sums hcols hrowsCut hrows', hres,
      hresCut, Except.ok.injEq]
    rcases hn.eq_or_lt with hzero | hpos
    · rw [← hzero]
      exact iff_of_false (fun h => by cases h) fun h => lt_irrefl _ h.1
    · obtain ⟨m, hm⟩ : ∃ m, n.toInt.toNat = m + 1 := Nat.exists_eq_succ_of_ne_zero (by omega)
      rw [hm, List.take_succ_cons, List.take_nil, List.cons.injEq, and_iff_left rfl, and_iff_right hpos]

end Rows

/-- A merge sort. -/
def mergeSort : StdSort := ⟨fun less rows => rows.mergeSort fun a b => !less b a, fun _ rows => List.mergeSort_perm rows _⟩

/-- A table with an `INT` column, scanned. -/
def intTable (values : List ℤ) : ExecutorTree :=
  ⟨ℕ, Restart.ofList RMDBError ((values.map (intBytes 4)).map some) none, [⟨"t", "a", .int, 4, 0⟩], 0⟩

theorem enumerates_intTable (values : List ℤ) :
    (intTable values).exec.Enumerates (fun _ => True) (values.map (intBytes 4)) := Restart.enumerates_ofList _ none

theorem valueCol_intTable (values : List ℤ) : ∀ col ∈ (intTable values).cols, ValueCol col.shape := by
  intro col hcol
  obtain rfl := List.mem_singleton.mp hcol
  exact .inl rfl

/-- No `double`. -/
def unitOps : DoubleOps := ⟨Unit, (), fun _ _ => (), fun _ _ => (), fun _ => 0, fun _ => 0⟩

/-- `SELECT a FROM t LIMIT 2`. -/
theorem limit_iff_two :
    LimitCorrect unitOps mergeSort (intTable [7, 5, 6]) ⟨[⟨"t", "a"⟩], none, [], -1⟩ 2 ↔
    if ([] : List AggCall) = [] then (2 : Int64).toInt < 2 ^ 31 ∨ 3 ≤ (limitOf (2 : Int64).toInt32).getD (2 : Int64).toInt.toNat
    else 0 < (2 : Int64).toInt ∧ ∀ agg ∈ ([] : List AggCall),
      aggValue unitOps (intTable [7, 5, 6]).cols
          (takeUpTo (limitOf (2 : Int64).toInt32) (orderedRows mergeSort none ([7, 5, 6].map (intBytes 4)))) agg =
        aggValue unitOps (intTable [7, 5, 6]).cols (orderedRows mergeSort none ([7, 5, 6].map (intBytes 4))) agg := by
  have hq : QueryOk (intTable [7, 5, 6]).cols ⟨[⟨"t", "a"⟩], none, [], -1⟩ none [⟨"t", "a", .int, 4, 0⟩] :=
    ⟨.inl ⟨rfl, rfl⟩, fun _ => rfl, fun hne => absurd rfl hne, fun agg hagg => by cases hagg⟩
  exact limit_iff unitOps mergeSort (enumerates_intTable [7, 5, 6]) trivial (by decide) (valueCol_intTable _) hq (by decide)

/-- `SELECT COUNT(*) FROM t LIMIT 1` counts one row of two. -/
theorem not_limit : ¬ ∀ (D : DoubleOps) (std : StdSort) (rel : ExecutorTree) (I : rel.State → Prop) (baseRows : List Bytes)
    (q : SelectQuery) (sortCols : Option (List (ColMeta × Bool))) (outCols : List ColMeta) (n : Int64),
    rel.exec.Enumerates I baseRows → I rel.init → (∀ rec ∈ baseRows, RecOk rel.cols rec) →
    (∀ col ∈ rel.cols, ValueCol col.shape) → QueryOk rel.cols q sortCols outCols → 0 ≤ n.toInt → LimitCorrect D std rel q n := by
  intro hall
  have hq : ∀ limit, QueryOk (intTable [5, 6]).cols ⟨[], none, [⟨.count, ⟨"", ""⟩, "c"⟩], limit⟩ none [⟨"", "c", .int, 4, 0⟩] :=
    fun limit => ⟨.inl ⟨rfl, rfl⟩, fun hnil => (by cases hnil), fun _ => rfl, fun agg hagg hsum => by
      obtain rfl := List.mem_singleton.mp hagg
      cases hsum⟩
  have hcorrect := hall unitOps mergeSort (intTable [5, 6]) _ _ ⟨[], none, [⟨.count, ⟨"", ""⟩, "c"⟩], -1⟩ none _ 1
    (enumerates_intTable [5, 6]) trivial (by decide) (valueCol_intTable _) (hq (-1)) (by decide)
  have htwo : Produces unitOps mergeSort (intTable [5, 6]) ⟨[], none, [⟨.count, ⟨"", ""⟩, "c"⟩], -1⟩ [intBytes 4 2] :=
    produces_aggregate _ _ (enumerates_intTable [5, 6]) trivial (hq (-1)) (List.cons_ne_nil _ _) rfl
  have hone : Produces unitOps mergeSort (intTable [5, 6]) ⟨[], none, [⟨.count, ⟨"", ""⟩, "c"⟩], 1⟩ [intBytes 4 1] :=
    produces_aggregate _ _ (enumerates_intTable [5, 6]) trivial (hq 1) (List.cons_ne_nil _ _) rfl
  have heq := (limitCorrect_iff_of_produces htwo hone).mp hcorrect
  exact absurd heq (by decide)

end Rmdb.Execution
