import Rmdb.Common.Value

/-!
# Checking the conditions of a statement

The part of `Analyze` that turns the `WHERE` clause of a syntax tree into conditions.
`get_clause` copies the clause; `check_clause` finds the table of a column that is given
without one, checks that the columns exist, converts a value to the type of its column and
writes its bytes, and compares the types of the two sides.

`checkClause_checked` collects what a list of conditions has passed.
-/

namespace Rmdb.Analyze

/-- `ast::Value`: a literal. -/
inductive SvValue where
  /-- `IntLit`. -/
  | intLit (val : ℤ)
  /-- `FloatLit`, as a bit pattern. -/
  | floatLit (bits : ℕ)
  /-- `StringLit`. -/
  | stringLit (val : Bytes)

/-- The right-hand side of an `ast::BinaryExpr`. -/
inductive SvRhs where
  /-- `ast::Value`. -/
  | val (v : SvValue)
  /-- `ast::Col`. -/
  | col (c : TabCol)

/-- `ast::BinaryExpr`. -/
structure BinaryExpr where
  /-- `lhs`; the name of the table may be empty. -/
  lhs : TabCol
  /-- `op`. -/
  op : CompOp
  /-- `rhs`. -/
  rhs : SvRhs

/-- `convert_sv_value`. -/
def convertSvValue : SvValue → Value
  | .intLit v => ⟨.bigint v, none⟩
  | .floatLit bits => ⟨.float bits, none⟩
  | .stringLit s => ⟨.str s, none⟩

/-- One round of `get_clause`. The value of a comparison of columns is never read. -/
def getCond (expr : BinaryExpr) : Condition :=
  match expr.rhs with
  | .val v => ⟨expr.lhs, expr.op, true, ⟨"", ""⟩, convertSvValue v⟩
  | .col c => ⟨expr.lhs, expr.op, false, c, ⟨.int 0, none⟩⟩

/-- `get_clause`. -/
def getClause (svConds : List BinaryExpr) : List Condition := svConds.map getCond

/-- `get_all_cols`. -/
def getAllCols (db : DbMeta) : List String → Except RMDBError (List ColMeta)
  | [] => .ok []
  | tabName :: tabNames => do
    let tab ← db.getTable tabName
    let cols ← getAllCols db tabNames
    .ok (tab.cols ++ cols)

/-- The loop of `check_column` for a column without a table: the table that has it. -/
def inferTab (colName : String) : String → List ColMeta → Except RMDBError String
  | tabName, [] => .ok tabName
  | tabName, col :: cols =>
    if col.name = colName then
      if tabName ≠ "" then .error (.ambiguousColumn colName) else inferTab colName col.tabName cols
    else inferTab colName tabName cols

/-- `check_column`. -/
def checkColumn (allCols : List ColMeta) (target : TabCol) : Except RMDBError TabCol :=
  if target.tabName = "" then do
    let tabName ← inferTab target.colName "" allCols
    if tabName = "" then .error (.columnNotFound target.colName) else .ok ⟨tabName, target.colName⟩
  else if allCols.any fun col => col.tabName = target.tabName ∧ col.name = target.colName then .ok target
  else .error (.columnNotFound (target.tabName ++ "." ++ target.colName))

/-- The first half of a round of `check_clause`: the columns get their tables. -/
def resolveCond (allCols : List ColMeta) (cond : Condition) : Except RMDBError Condition := do
  let lhsCol ← checkColumn allCols cond.lhsCol
  if cond.isRhsVal then .ok { cond with lhsCol := lhsCol }
  else do
    let rhsCol ← checkColumn allCols cond.rhsCol
    .ok { cond with lhsCol := lhsCol, rhsCol := rhsCol }

/-- The second half of a round of `check_clause`: values are converted, and types compared. -/
def typeCond (db : DbMeta) (cond : Condition) : Except RMDBError Condition := do
  let lhsTab ← db.getTable cond.lhsCol.tabName
  let lhsCol ← lhsTab.getCol cond.lhsCol.colName
  if cond.isRhsVal then do
    let val ← cond.rhsVal.coerceValueType lhsCol.type lhsCol.len
    let val ← val.initRaw lhsCol.len
    if lhsCol.type ≠ val.type then .error (.incompatibleType lhsCol.type val.type) else .ok { cond with rhsVal := val }
  else do
    let rhsTab ← db.getTable cond.rhsCol.tabName
    let rhsCol ← rhsTab.getCol cond.rhsCol.colName
    if lhsCol.type ≠ rhsCol.type then .error (.incompatibleType lhsCol.type rhsCol.type) else .ok cond

/-- `check_clause`. -/
def checkClause (db : DbMeta) (tabNames : List String) (conds : List Condition) : Except RMDBError (List Condition) := do
  let allCols ← getAllCols db tabNames
  conds.mapM fun cond => do
    let cond ← resolveCond allCols cond
    typeCond db cond

/-! ### What has been checked -/

/-- The name of a column of one of the tables, and the column. -/
structure ColOf (db : DbMeta) (tables : List String) (name : TabCol) (col : ColMeta) : Prop where
  mem : name.tabName ∈ tables
  found : ∃ tab, db.tabs name.tabName = some tab ∧ tab.getCol name.colName = .ok col

/-- A condition that passed `check_clause`. -/
structure Checked (db : DbMeta) (tables : List String) (cond : Condition) (lhs : ColMeta) : Prop where
  left : ColOf db tables cond.lhsCol lhs
  val : cond.isRhsVal = true →
    cond.rhsVal.type = lhs.type ∧ cond.rhsCol.tabName = "" ∧ ∃ raw, cond.rhsVal.raw = some raw ∧ raw.length = lhs.len
  col : cond.isRhsVal = false → ∃ rhs, ColOf db tables cond.rhsCol rhs ∧ rhs.type = lhs.type

/-- The rule for a sequence of two computations. -/
theorem bind_eq_ok {E A B : Type} {x : Except E A} {f : A → Except E B} {b : B} (h : (x >>= f) = .ok b) :
    ∃ a, x = .ok a ∧ f a = .ok b := by
  cases x with
  | error e => cases h
  | ok a => exact ⟨a, rfl, h⟩

theorem mem_getAllCols {db : DbMeta} (hdb : db.Ok) {tabNames : List String} {allCols : List ColMeta}
    (h : getAllCols db tabNames = .ok allCols) : ∀ c ∈ allCols, c.tabName ∈ tabNames := by
  induction tabNames generalizing allCols with
  | nil =>
    cases h
    simp
  | cons t ts ih =>
    obtain ⟨tab, htab, h⟩ := bind_eq_ok h
    obtain ⟨cols, hcols, h⟩ := bind_eq_ok h
    cases h
    intro c hc
    rcases List.mem_append.mp hc with hc | hc
    · unfold DbMeta.getTable at htab
      split at htab
      · next tab' htab' =>
        cases htab
        obtain ⟨hname, hok⟩ := hdb.tabs htab'
        rw [(hok.cols c hc).1, hname]
        exact List.mem_cons_self
      · cases htab
    · exact List.mem_cons_of_mem _ (ih hcols c hc)

theorem inferTab_mem {colName tabName res : String} {cols : List ColMeta} (h : inferTab colName tabName cols = .ok res) :
    res = tabName ∨ ∃ c ∈ cols, res = c.tabName := by
  induction cols generalizing tabName with
  | nil =>
    cases h
    exact Or.inl rfl
  | cons c cols ih =>
    unfold inferTab at h
    split_ifs at h with h1 h2
    · rcases ih h with rfl | ⟨c', hc', rfl⟩
      · exact Or.inr ⟨c, List.mem_cons_self, rfl⟩
      · exact Or.inr ⟨c', List.mem_cons_of_mem _ hc', rfl⟩
    · rcases ih h with rfl | ⟨c', hc', rfl⟩
      · exact Or.inl rfl
      · exact Or.inr ⟨c', List.mem_cons_of_mem _ hc', rfl⟩

theorem checkColumn_mem {tabNames : List String} {allCols : List ColMeta} (hall : ∀ c ∈ allCols, c.tabName ∈ tabNames)
    {target res : TabCol} (h : checkColumn allCols target = .ok res) : res.tabName ∈ tabNames := by
  unfold checkColumn at h
  split_ifs at h with h1 h2
  · obtain ⟨tabName, hinfer, h⟩ := bind_eq_ok h
    split_ifs at h with h3
    cases h
    rcases inferTab_mem hinfer with rfl | ⟨c, hc, rfl⟩
    · exact absurd rfl h3
    · exact hall c hc
  · cases h
    obtain ⟨c, hc, heq⟩ := List.any_eq_true.mp h2
    rw [← (of_decide_eq_true heq).1]
    exact hall c hc

theorem initRaw_spec {v v' : Value} {len : ℕ} (h : v.initRaw len = .ok v') :
    ∃ raw, v'.raw = some raw ∧ raw.length = len := by
  unfold Value.initRaw at h
  cases hraw : v.raw.isSome with
  | true =>
    rw [hraw] at h
    cases h
  | false =>
    rw [hraw, if_neg (by simp)] at h
    cases hlit : v.lit <;> simp only [hlit] at h <;> split_ifs at h with hl <;> cases h
    · exact ⟨_, rfl, by rw [intBytes, length_leBytes, hl]⟩
    · exact ⟨_, rfl, by rw [length_leBytes, hl]⟩
    · exact ⟨_, rfl, by rw [intBytes, length_leBytes, hl]⟩
    · exact ⟨_, rfl, by rw [intBytes, length_leBytes, hl]⟩
    · refine ⟨_, rfl, ?_⟩
      rw [List.length_append, List.length_replicate]
      omega

theorem getTable_eq {db : DbMeta} {t : String} {tab : TabMeta} (h : db.getTable t = .ok tab) : db.tabs t = some tab := by
  unfold DbMeta.getTable at h
  split at h
  · cases h
    assumption
  · cases h

/-- A round of `check_clause` keeps the operator and the kind of right-hand side, and leaves a checked condition. -/
theorem checkCond_checked {db : DbMeta} {tabNames : List String} {allCols : List ColMeta}
    (hall : ∀ c ∈ allCols, c.tabName ∈ tabNames) {cond cond' : Condition}
    (hrhs : cond.isRhsVal = true → cond.rhsCol.tabName = "")
    (h : (resolveCond allCols cond >>= typeCond db) = .ok cond') :
    ∃ lhs, Checked db tabNames cond' lhs := by
  obtain ⟨c, hc, h⟩ := bind_eq_ok h
  -- the names after the first half
  have hres : c.isRhsVal = cond.isRhsVal ∧ c.lhsCol.tabName ∈ tabNames ∧
      (c.isRhsVal = true → c.rhsCol = cond.rhsCol) ∧ (c.isRhsVal = false → c.rhsCol.tabName ∈ tabNames) := by
    unfold resolveCond at hc
    obtain ⟨l, hl, hc⟩ := bind_eq_ok hc
    split_ifs at hc with hv
    · cases hc
      exact ⟨rfl, checkColumn_mem hall hl, fun _ => rfl, fun hf => absurd (hv.symm.trans hf) (by simp)⟩
    · obtain ⟨r, hr, hc⟩ := bind_eq_ok hc
      cases hc
      exact ⟨rfl, checkColumn_mem hall hl, fun hf => absurd hf hv, fun _ => checkColumn_mem hall hr⟩
  obtain ⟨hval, hlhs, hkeep, hrhs'⟩ := hres
  obtain ⟨ltab, hltab, h⟩ := bind_eq_ok h
  obtain ⟨lcol, hlcol, h⟩ := bind_eq_ok h
  have hl : ColOf db tabNames c.lhsCol lcol := ⟨hlhs, ltab, getTable_eq hltab, hlcol⟩
  refine ⟨lcol, ?_⟩
  split_ifs at h with hv
  · obtain ⟨v, hcoerce, h⟩ := bind_eq_ok h
    obtain ⟨v', hraw, h⟩ := bind_eq_ok h
    split_ifs at h with htype
    cases h
    refine ⟨hl, fun _ => ⟨(not_not.mp htype).symm, ?_, initRaw_spec hraw⟩, fun hf => absurd (hv.symm.trans hf) (by simp)⟩
    rw [hkeep hv]
    exact hrhs (hval ▸ hv)
  · obtain ⟨rtab, hrtab, h⟩ := bind_eq_ok h
    obtain ⟨rcol, hrcol, h⟩ := bind_eq_ok h
    split_ifs at h with htype
    cases h
    refine ⟨hl, fun hf => absurd hf hv, fun hf => ⟨rcol, ⟨hrhs' hf, rtab, getTable_eq hrtab, hrcol⟩, ?_⟩⟩
    exact (not_not.mp htype).symm

theorem mapM_ok {E A B : Type} {f : A → Except E B} : ∀ {l : List A} {l' : List B}, l.mapM f = .ok l' →
    ∀ b ∈ l', ∃ a ∈ l, f a = .ok b
  | [], l', h => by
    cases h
    simp
  | a :: l, l', h => by
    rw [List.mapM_cons] at h
    obtain ⟨b, hb, h⟩ := bind_eq_ok h
    obtain ⟨bs, hbs, h⟩ := bind_eq_ok h
    cases h
    intro b' hb'
    rcases List.mem_cons.mp hb' with rfl | hb'
    · exact ⟨a, List.mem_cons_self, hb⟩
    · obtain ⟨a', ha', h⟩ := mapM_ok hbs b' hb'
      exact ⟨a', List.mem_cons_of_mem _ ha', h⟩

/-- **What has passed `check_clause`**: the columns are there, the types agree, and values have the length of their
column. -/
theorem checkClause_checked {db : DbMeta} (hdb : db.Ok) {tabNames : List String} {svConds : List BinaryExpr}
    {conds : List Condition} (h : checkClause db tabNames (getClause svConds) = .ok conds) :
    ∀ c ∈ conds, ∃ lhs, Checked db tabNames c lhs := by
  obtain ⟨allCols, hall, h⟩ := bind_eq_ok h
  intro c hc
  obtain ⟨c₀, hc₀, hok⟩ := mapM_ok h c hc
  refine checkCond_checked (mem_getAllCols hdb hall) (fun hv => ?_) hok
  obtain ⟨expr, -, rfl⟩ := List.mem_map.mp hc₀
  unfold getCond at hv ⊢
  cases hrhs : expr.rhs with
  | val v => rfl
  | col c => simp [hrhs] at hv

end Rmdb.Analyze
