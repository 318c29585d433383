import Rmdb.Execution.Planned

/-!
# What a SELECT returns

`make_one_rel` and the executors together. A list of conditions that `check_clause` has passed is
planned right (`Plannable`) if two things hold of it. A comparison of two columns of one table is
about the first table of the `FROM` list: `pop_conds` leaves every such comparison in the scan of
the first table, and finds no column there if it is about another one. And where strings are
compared, in the order in which the tables stand in the tree, they have one length, or the shorter
one is on the left and the operator does not tell less from equal.

Exactly then every condition is attached once, where its columns are and are compared as values
(`denotes_iff`), and the tree returns the rows of the cross product that satisfy all conditions.
-/

namespace Rmdb.Execution

open Lib Optimizer Analyze

/-! ### What is claimed of a plan -/

/-- **The tree denotes the query**: every condition is attached once, as it is or with its sides exchanged, where it sees its
columns, and the rows are those of the cross product that satisfy all conditions, in some order and with the tables in the
order of the tree. -/
structure Denotes (db : DbMeta) (tables : List String) (conds : List Condition) (plan : Plan) : Prop where
  placed : ∃ attached, List.Forall₂ (fun c c' => c' = c ∨ c.isRhsVal = false ∧ c' = c.swapped) conds attached ∧
    plan.conds.Perm attached
  sees : Sees db plan
  rows : ∀ tabRows, RowsFit db tabRows → ∃ rows : List Row, planRows db tabRows plan = .ok (rows.map Row.bytes) ∧
    (∀ row ∈ rows, row.map (·.1) = plan.tables) ∧ plan.tables.Perm tables ∧
    (rows.map valueAt).Perm (((product tabRows tables).filter fun row => conds.all (holdsIn db (valueAt row))).map valueAt)

/-- **When conditions are planned right.** -/
structure Plannable (db : DbMeta) (tables : List String) (conds : List Condition) : Prop where
  first : ∀ c ∈ conds, c.isRhsVal = false → c.lhsCol.tabName = c.rhsCol.tabName → tables.head? = some c.lhsCol.tabName
  strings : ∀ c ∈ conds, c.isRhsVal = false → ∀ l r, ColOf db tables (orient (joinOrder conds) c).lhsCol l →
    ColOf db tables (orient (joinOrder conds) c).rhsCol r → l.type = .string →
    l.len = r.len ∨ l.len < r.len ∧ ((orient (joinOrder conds) c).op = .gt ∨ (orient (joinOrder conds) c).op = .le)

/-! ### What has been checked -/

section Checked

variable {db : DbMeta} {tables : List String} {conds : List Condition}

theorem exists_of_getAllCols : ∀ {tables : List String} {cols : List ColMeta}, getAllCols db tables = .ok cols →
    ∀ t ∈ tables, ∃ tab, db.tabs t = some tab
  | [], _, _ => by simp
  | t :: ts, cols, h => by
    obtain ⟨tab, htab, h⟩ := bind_eq_ok h
    obtain ⟨rest, hrest, -⟩ := bind_eq_ok h
    exact List.forall_mem_cons.mpr ⟨⟨tab, getTable_eq htab⟩, exists_of_getAllCols hrest⟩

theorem named_of_checked {cond : Condition} {lhs : ColMeta} (h : Checked db tables cond lhs) : Named tables cond :=
  ⟨h.left.mem, fun hval => (h.val hval).2.1, fun hval => by
    obtain ⟨rhs, hrhs, -⟩ := h.col hval
    exact hrhs.mem⟩

theorem lenOk_of_colOf (hdb : db.Ok) {target : TabCol} {col : ColMeta} (h : ColOf db tables target col) : col.LenOk := by
  obtain ⟨tab, htab, hget⟩ := h.found
  rw [TabMeta.getCol] at hget
  split at hget
  · rename_i c hc
    cases hget
    exact ((hdb.tabs htab).2.cols _ (List.mem_of_find?_eq_some hc)).2
  · cases hget

/-- Two columns of one type are compared whole, unless they are strings of the wrong lengths. -/
theorem comparesWhole_of_strings (hdb : db.Ok) {target target' : TabCol} {l r : ColMeta} {op : CompOp}
    (hl : ColOf db tables target l) (hr : ColOf db tables target' r) (htype : r.type = l.type)
    (hstrings : l.type = .string → l.len = r.len ∨ l.len < r.len ∧ (op = .gt ∨ op = .le)) :
    ComparesWhole l.type l.len r.len op := by
  by_cases hstring : l.type = .string
  · rw [hstring]
    exact comparesWhole_string.mpr (hstrings hstring)
  · refine comparesWhole_of_ne_string hstring (width_le (lenOk_of_colOf hdb hl)) ?_ op
    rw [← htype]
    exact width_le (lenOk_of_colOf hdb hr)

/-- A checked condition is compared as its values are, where it is attached. -/
theorem Plannable.condWhole (h : Plannable db tables conds) (hdb : db.Ok) (hnil : "" ∉ tables)
    (hchecked : ∀ c ∈ conds, ∃ lhs, Checked db tables c lhs) {c : Condition} (hc : c ∈ conds) :
    ∃ lhs, CondWhole db tables (orient (joinOrder conds) c) lhs := by
  obtain ⟨lhs, hck⟩ := hchecked c hc
  have hnamed : ∀ c ∈ conds, Named tables c := fun c hc => by
    obtain ⟨lhs, hck⟩ := hchecked c hc
    exact named_of_checked hck
  cases hval : c.isRhsVal with
  | true =>
    rw [orient_of_not_crossTable hnil hnamed hc (by simp [crossTable, hval])]
    refine ⟨lhs, hck.left, ?_, fun hf => absurd (hval.symm.trans hf) (by decide)⟩
    intro _
    obtain ⟨htype, -, raw, hraw, hlen⟩ := hck.val hval
    exact ⟨htype, raw, hraw, hlen⟩
  | false =>
    obtain ⟨rhs, hrhs, htype⟩ := hck.col hval
    have hstrings := h.strings c hc hval
    rw [orient] at hstrings ⊢
    split_ifs at hstrings ⊢ with hle
    · exact ⟨lhs, hck.left, fun hf => absurd (hval.symm.trans hf) (by decide), fun _ => ⟨rhs, hrhs, htype,
        comparesWhole_of_strings hdb hck.left hrhs htype (hstrings lhs rhs hck.left hrhs)⟩⟩
    · exact ⟨rhs, hrhs, fun hf => absurd (hval.symm.trans hf) (by decide), fun _ => ⟨lhs, hck.left, htype.symm,
        comparesWhole_of_strings hdb hrhs hck.left htype.symm (hstrings rhs lhs hrhs hck.left)⟩⟩

/-- Conditions that are planned right end up where their tables are. -/
theorem Plannable.placed (h : Plannable db tables conds) (hdb : db.Ok) (hnil : "" ∉ tables)
    (hchecked : ∀ c ∈ conds, ∃ lhs, Checked db tables c lhs) {plan : Plan} (hplan : OneRel tables conds plan) :
    CondsPlaced db tables plan := by
  refine ⟨?_, hplan.joins, ?_⟩
  · intro s hs c hc
    obtain ⟨hmem, hpops⟩ := hplan.own s hs c hc
    obtain ⟨lhs, hck⟩ := hchecked c hmem
    cases hsame : sameTable c with
    | false =>
      rw [popsCond_of_not_sameTable hsame] at hpops
      obtain ⟨hname, hval⟩ : s.tabName = c.lhsCol.tabName ∧ c.isRhsVal = true := by simpa using hpops
      exact ⟨by simp [hname], fun hf => absurd (hval.symm.trans hf) (by decide)⟩
    | true =>
      have hsame' : c.lhsCol.tabName = c.rhsCol.tabName := of_decide_eq_true hsame
      have hval : c.isRhsVal = false := by
        cases hval : c.isRhsVal with
        | false => rfl
        | true =>
          refine absurd hck.left.mem ?_
          rw [hsame', (hck.val hval).2.1]
          exact hnil
      by_cases hhead : tables.head? = some s.tabName
      · have hname : c.lhsCol.tabName = s.tabName := by
          have hfirst := h.first c hmem hval hsame'
          rw [hhead] at hfirst
          exact (Option.some.inj hfirst).symm
        exact ⟨by simp [hname], fun _ => by simp [← hsame', hname]⟩
      · exact absurd (hplan.others s hs hhead c hc) (by simp [hsame])
  · intro c hc
    obtain ⟨c₀, hc₀, rfl⟩ := List.mem_map.mp (hplan.conds.subset hc)
    exact h.condWhole hdb hnil hchecked hc₀

end Checked

/-! ### What is seen where -/

section Sees

variable {db : DbMeta} {tables : List String}

theorem sees_of_placed : ∀ {plan : Plan}, PlanOk db plan → CondsPlaced db tables plan → Sees db plan
  | .scan tag t conds cols, hplan, h => fun c hc => by
    have hmem : c ∈ (Plan.scan tag t conds cols).conds := by
      simpa [Plan.conds, Plan.scans, Plan.joinConds, Plan.ownConds] using hc
    obtain ⟨lhs, hwhole⟩ := h.whole c hmem
    obtain ⟨hl, hr⟩ := h.mentions c hmem
    obtain ⟨l, hfindl, htypel, hlenl, -⟩ := find_column hplan hwhole.left hl
    refine ⟨⟨false, l⟩, by rw [planEvaluator, Evaluator.find, hfindl, Option.map_some], ?_⟩
    intro hval
    obtain ⟨rhs, hrhs, -, hcompares⟩ := hwhole.col hval
    obtain ⟨r, hfindr, -, hlenr, -⟩ := find_column hplan hrhs (hr hval)
    refine ⟨⟨false, r⟩, by rw [planEvaluator, Evaluator.find, hfindr, Option.map_some], ?_⟩
    rwa [htypel, hlenl, hlenr]
  | .join left right conds, hplan, h => by
    obtain ⟨hleft, hright, hdis⟩ := hplan.children
    obtain ⟨hlconds, hrconds, hown⟩ := h.children
    refine ⟨sees_of_placed hleft hlconds, sees_of_placed hright hrconds, ?_⟩
    intro c hc
    obtain ⟨⟨-, hl, hr⟩, lhs, hwhole⟩ := hown c hc
    obtain ⟨l, hfindl, htypel, hlenl, -⟩ := find_column hleft hwhole.left hl
    refine ⟨⟨false, l⟩, by rw [planEvaluator, Evaluator.find, hfindl], ?_⟩
    intro hval
    obtain ⟨rhs, hrhs, -, hcompares⟩ := hwhole.col hval
    obtain ⟨r, hfindr, -, hlenr, -⟩ := find_column hright hrhs hr
    refine ⟨⟨true, r⟩, ?_, ?_⟩
    · rw [planEvaluator, Evaluator.find, find_planCols_none hleft fun ht => hdis _ ht hr]
      simp only [hfindr, Option.map_some]
    · rwa [htypel, hlenl, hlenr]

theorem sees_scan : ∀ {plan : Plan}, Sees db plan → ∀ s ∈ plan.scans, ∀ c ∈ s.ownConds, CondSees (planEvaluator db s) c
  | .scan tag t conds cols, h, s, hs, c, hc => by
    obtain rfl := List.mem_singleton.mp hs
    exact h c hc
  | .join left right conds, h, s, hs, c, hc => by
    rcases List.mem_append.mp hs with hs | hs
    · exact sees_scan h.1 s hs c hc
    · exact sees_scan h.2.1 s hs c hc

/-- Every condition is seen somewhere. -/
theorem exists_sees : ∀ {plan : Plan}, PlanOk db plan → Sees db plan → ∀ c ∈ plan.conds,
    ∃ node, PlanOk db node ∧ CondSees (planEvaluator db node) c
  | .scan tag t conds cols, hplan, h, c, hc => by
    have hmem : c ∈ conds := by simpa [Plan.conds, Plan.scans, Plan.joinConds, Plan.ownConds] using hc
    exact ⟨_, hplan, h c hmem⟩
  | .join left right conds, hplan, h, c, hc => by
    obtain ⟨hleft, hright, -⟩ := hplan.children
    have hsplit : c ∈ left.conds ∨ c ∈ right.conds ∨ c ∈ conds := by
      simp only [Plan.conds, Plan.scans, Plan.joinConds, List.flatMap_append, List.mem_append] at hc ⊢
      tauto
    rcases hsplit with hc | hc | hc
    · exact exists_sees hleft h.1 c hc
    · exact exists_sees hright h.2.1 c hc
    · exact ⟨_, hplan, h.2.2 c hc⟩

theorem shape_of_find_planCols {plan : Plan} (hplan : PlanOk db plan) {target : TabCol} {col c : ColMeta}
    (hcol : ColOf db tables target col) (hfind : (planCols db plan).find? (isTarget target) = some c) :
    c.type = col.type ∧ c.len = col.len := by
  by_cases ht : target.tabName ∈ plan.tables
  · obtain ⟨c', hfind', htype, hlen, -⟩ := find_column hplan hcol ht
    obtain rfl := Option.some.inj (hfind.symm.trans hfind')
    exact ⟨htype, hlen⟩
  · rw [find_planCols_none hplan ht] at hfind
    cases hfind

/-- The column that a node finds has the type and the length that the catalog says. -/
theorem shape_of_find {node : Plan} (hnode : PlanOk db node) {target : TabCol} {col : ColMeta} {x : Operand}
    (hcol : ColOf db tables target col) (hfind : (planEvaluator db node).find target = some x) :
    x.col.type = col.type ∧ x.col.len = col.len := by
  cases node with
  | scan tag t conds cols =>
    obtain ⟨c, hc, rfl⟩ := Option.map_eq_some_iff.mp hfind
    exact shape_of_find_planCols hnode hcol hc
  | join left right conds =>
    obtain ⟨hleft, hright, -⟩ := hnode.children
    rw [planEvaluator, Evaluator.find] at hfind
    split at hfind
    · rename_i c hc
      cases hfind
      exact shape_of_find_planCols hleft hcol hc
    · obtain ⟨c, hc, rfl⟩ := Option.map_eq_some_iff.mp hfind
      exact shape_of_find_planCols hright hcol hc

end Sees

/-! ### The query -/

section Query

variable {db : DbMeta} {tables : List String} {conds : List Condition}

theorem holdsIn_swapped {row : String → Option Bytes} {cond : Condition} (hval : cond.isRhsVal = false)
    (htypes : ∀ l r, colValue db row cond.lhsCol = some l → colValue db row cond.rhsCol = some r → l.1 = r.1) :
    holdsIn db row cond.swapped = holdsIn db row cond := by
  have hr : rhsValue db row cond = colValue db row cond.rhsCol := by rw [rhsValue, hval]; rfl
  have hr' : rhsValue db row cond.swapped = colValue db row cond.lhsCol := by rw [rhsValue, Condition.swapped, hval]; rfl
  rw [holdsIn, holdsIn, hr, hr', show cond.swapped.lhsCol = cond.rhsCol from rfl]
  rcases hl : colValue db row cond.lhsCol with _ | l
  · cases colValue db row cond.rhsCol <;> rfl
  · rcases hrr : colValue db row cond.rhsCol with _ | r
    · rfl
    · simp only [htypes l r hl hrr, compareValues_neg r.1 l.2 r.2]
      exact holds_swapOp cond.op _

/-- A condition means the same however it is attached. -/
theorem holdsIn_orient {row : String → Option Bytes} {cond : Condition} {lhs : ColMeta} (hck : Checked db tables cond lhs)
    (order : List String) (hval : cond.isRhsVal = true → orient order cond = cond) :
    holdsIn db row (orient order cond) = holdsIn db row cond := by
  cases hv : cond.isRhsVal with
  | true => rw [hval hv]
  | false =>
    obtain ⟨rhs, hrhs, htype⟩ := hck.col hv
    have htypes : ∀ {target : TabCol} {col : ColMeta} {v : ColType × Bytes}, ColOf db tables target col →
        colValue db row target = some v → v.1 = col.type := by
      intro target col v hcol hvalue
      rcases hrow : row target.tabName with _ | rec
      · simp [colValue, hrow] at hvalue
      · rw [colValue_eq hcol hrow] at hvalue
        exact (congrArg Prod.fst (Option.some.inj hvalue)).symm
    rw [orient]
    split_ifs
    · rfl
    · exact holdsIn_swapped hv fun l r hl hr => (htypes hck.left hl).trans (htype.symm.trans (htypes hrhs hr).symm)

/-- The tree of conditions that are planned right. -/
theorem Plannable.denotes (h : Plannable db tables conds) (hdb : db.Ok) (hfound : ∀ t ∈ tables, ∃ tab, db.tabs t = some tab)
    (hnd : tables.Nodup) (hnil : "" ∉ tables) (hchecked : ∀ c ∈ conds, ∃ lhs, Checked db tables c lhs) {plan : Plan}
    (hplan : OneRel tables conds plan) : Denotes db tables conds plan := by
  have hnamed : ∀ c ∈ conds, Named tables c := fun c hc => by
    obtain ⟨lhs, hck⟩ := hchecked c hc
    exact named_of_checked hck
  have hok : PlanOk db plan := ⟨hdb, fun t ht => hfound t (hplan.perm.subset ht), hplan.perm.nodup_iff.mpr hnd⟩
  have hplaced := h.placed hdb hnil hchecked hplan
  have hval : ∀ c ∈ conds, c.isRhsVal = true → orient (joinOrder conds) c = c := fun c hc hval =>
    orient_of_not_crossTable hnil hnamed hc (by simp [crossTable, hval])
  refine ⟨⟨_, ?_, hplan.conds⟩, sees_of_placed hok hplaced, ?_⟩
  · refine List.forall₂_map_right_iff.mpr (List.forall₂_same.mpr ?_)
    intro c hc
    cases hv : c.isRhsVal with
    | true => exact Or.inl (hval c hc hv)
    | false =>
      rw [orient]
      split_ifs
      · exact Or.inl rfl
      · exact Or.inr ⟨rfl, rfl⟩
  · intro tabRows hrows
    refine ⟨_, planRows_eq hrows hok hplaced, ?_, hplan.perm, ?_⟩
    · intro row hrow
      exact (mem_product.mp (List.mem_of_mem_filter hrow)).1
    · have hall : ∀ row : String → Option Bytes, plan.conds.all (holdsIn db row) = conds.all (holdsIn db row) := by
        intro row
        rw [Bool.eq_iff_iff, List.all_eq_true, List.all_eq_true]
        constructor
        · intro hsat c hc
          obtain ⟨lhs, hck⟩ := hchecked c hc
          rw [← holdsIn_orient hck (joinOrder conds) (hval c hc)]
          exact hsat _ (hplan.conds.mem_iff.mpr (List.mem_map_of_mem hc))
        · intro hsat c' hc'
          obtain ⟨c, hc, rfl⟩ := List.mem_map.mp (hplan.conds.subset hc')
          obtain ⟨lhs, hck⟩ := hchecked c hc
          rw [holdsIn_orient hck (joinOrder conds) (hval c hc)]
          exact hsat c hc
      have hfilter : ∀ ts : List String, ((product tabRows ts).filter fun row => conds.all (holdsIn db (valueAt row))).map valueAt =
          ((product tabRows ts).map valueAt).filter fun row => conds.all (holdsIn db row) := fun ts => by
        rw [List.filter_map]
        rfl
      simp only [hall]
      rw [hfilter, hfilter]
      exact (product_perm hplan.perm (hplan.perm.nodup_iff.mpr hnd)).filter _

/-- Only conditions that are planned right are seen where they are attached. -/
theorem Denotes.plannable {plan : Plan} (h : Denotes db tables conds plan) (hdb : db.Ok) (hne : tables ≠ [])
    (hfound : ∀ t ∈ tables, ∃ tab, db.tabs t = some tab) (hnd : tables.Nodup) (hplan : OneRel tables conds plan) :
    Plannable db tables conds := by
  have hok : PlanOk db plan := ⟨hdb, fun t ht => hfound t (hplan.perm.subset ht), hplan.perm.nodup_iff.mpr hnd⟩
  constructor
  · intro c hc hval hsame
    obtain ⟨t, ts, rfl⟩ := List.exists_cons_of_ne_nil hne
    obtain ⟨s, hs, rfl⟩ := List.mem_map.mp (hplan.perm.mem_iff.mpr List.mem_cons_self)
    -- the condition is in the scan of the first table
    have hown : c ∈ s.ownConds := by
      rw [hplan.first s hs rfl]
      exact List.mem_filter.mpr ⟨hc, popsCond_of_sameTable _ (decide_eq_true hsame)⟩
    obtain ⟨x, hfind, -⟩ := sees_scan h.sees s hs c hown
    obtain ⟨tag, cols, hscan⟩ := hplan.isScan s hs
    obtain ⟨tab, htab⟩ := hfound s.tabName List.mem_cons_self
    rw [hscan] at hfind
    obtain ⟨col, hcol, -⟩ := Option.map_eq_some_iff.mp hfind
    rw [planCols, htab] at hcol
    obtain ⟨hname, htabok⟩ := hdb.tabs htab
    have htarget := (of_decide_eq_true (List.find?_some hcol :)).1
    rw [List.head?_cons, ← htarget, (htabok.cols col (List.mem_of_find?_eq_some hcol)).1, hname]
  · intro c hc hval l r hl hr hstring
    obtain ⟨node, hnode, x, hx, hsees⟩ := exists_sees hok h.sees _ (hplan.conds.mem_iff.mpr (List.mem_map_of_mem hc))
    have hval' : (orient (joinOrder conds) c).isRhsVal = false := by
      rw [orient]
      split_ifs <;> exact hval
    obtain ⟨y, hy, hwhole⟩ := hsees hval'
    obtain ⟨htypel, hlenl⟩ := shape_of_find hnode hl hx
    obtain ⟨-, hlenr⟩ := shape_of_find hnode hr hy
    rw [htypel, hlenl, hlenr, hstring] at hwhole
    exact comparesWhole_string.mp hwhole

/-- **When the tree denotes the query**: exactly if the conditions are planned right. -/
theorem denotes_iff (hdb : db.Ok) (hne : tables ≠ []) (hnd : tables.Nodup) {svConds : List BinaryExpr}
    (hcheck : checkClause db tables (getClause svConds) = .ok conds) :
    (∃ plan, makeOneRel db tables conds = .ok plan ∧ Denotes db tables conds plan) ↔ Plannable db tables conds := by
  have hchecked := checkClause_checked hdb hcheck
  have hfound : ∀ t ∈ tables, ∃ tab, db.tabs t = some tab := by
    obtain ⟨cols, hcols, -⟩ := bind_eq_ok hcheck
    exact exists_of_getAllCols hcols
  have hnil : "" ∉ tables := fun h => by
    obtain ⟨tab, htab⟩ := hfound "" h
    obtain ⟨hname, hok⟩ := hdb.tabs htab
    exact hok.named hname
  have hnamed : ∀ c ∈ conds, Named tables c := fun c hc => by
    obtain ⟨lhs, hck⟩ := hchecked c hc
    exact named_of_checked hck
  obtain ⟨plan, hmake, hplan⟩ := makeOneRel_spec hfound hne hnd hnil hnamed
  constructor
  · rintro ⟨plan', hmake', hdenotes⟩
    obtain rfl := Except.ok.inj (hmake.symm.trans hmake')
    exact hdenotes.plannable hdb hne hfound hnd hplan
  · intro h
    exact ⟨plan, hmake, h.denotes hdb hfound hnd hnil hchecked hplan⟩

end Query

/-- Two tables with a column each. -/
def twoTables : DbMeta where
  tabs t :=
    if t = "a" then some ⟨"a", [⟨"a", "x", .int, 4, 0⟩], []⟩
    else if t = "b" then some ⟨"b", [⟨"b", "y", .int, 4, 0⟩], []⟩
    else none

/-- A comparison of two columns. -/
def colCond (lhs : TabCol) (op : CompOp) (rhs : TabCol) : Condition := ⟨lhs, op, false, rhs, ⟨.int 0, none⟩⟩

theorem twoTables_cases {t : String} {tab : TabMeta} (h : twoTables.tabs t = some tab) :
    (t = "a" ∧ tab = ⟨"a", [⟨"a", "x", .int, 4, 0⟩], []⟩) ∨ (t = "b" ∧ tab = ⟨"b", [⟨"b", "y", .int, 4, 0⟩], []⟩) := by
  rw [twoTables] at h
  dsimp only at h
  split_ifs at h with ha hb
  · exact Or.inl ⟨ha, (Option.some.inj h).symm⟩
  · exact Or.inr ⟨hb, (Option.some.inj h).symm⟩

theorem twoTables_ok : twoTables.Ok := ⟨fun h => by
  rcases twoTables_cases h with ⟨rfl, rfl⟩ | ⟨rfl, rfl⟩
  · exact ⟨rfl, ⟨by decide, by simp [ColMeta.LenOk], by simp⟩⟩
  · exact ⟨rfl, ⟨by decide, by simp [ColMeta.LenOk], by simp⟩⟩⟩

/-- A comparison in the first table, and one of the two tables, which is turned around. -/
theorem denotes_iff_two : ∃ plan, makeOneRel twoTables ["a", "b"]
      [colCond ⟨"a", "x"⟩ .eq ⟨"a", "x"⟩, colCond ⟨"b", "y"⟩ .lt ⟨"a", "x"⟩] = .ok plan ∧
    Denotes twoTables ["a", "b"] [colCond ⟨"a", "x"⟩ .eq ⟨"a", "x"⟩, colCond ⟨"b", "y"⟩ .lt ⟨"a", "x"⟩] plan := by
  have hcheck : checkClause twoTables ["a", "b"]
      (getClause [⟨⟨"a", "x"⟩, .eq, .col ⟨"a", "x"⟩⟩, ⟨⟨"", "y"⟩, .lt, .col ⟨"", "x"⟩⟩]) =
      .ok [colCond ⟨"a", "x"⟩ .eq ⟨"a", "x"⟩, colCond ⟨"b", "y"⟩ .lt ⟨"a", "x"⟩] := rfl
  refine (denotes_iff twoTables_ok (by decide) (by decide) hcheck).mpr ⟨?_, ?_⟩
  · simp [colCond]
  · intro c _ _ l _ hl _ hstring
    obtain ⟨tab, htab, hcol⟩ := hl.found
    have hint : ∀ col ∈ tab.cols, col.type = .int := by
      rcases twoTables_cases htab with ⟨-, rfl⟩ | ⟨-, rfl⟩ <;> simp
    rw [TabMeta.getCol] at hcol
    split at hcol
    · rename_i col hfind
      cases hcol
      exact absurd ((hint _ (List.mem_of_find?_eq_some hfind)).symm.trans hstring) (by decide)
    · cases hcol

/-- A comparison in the second table: it is evaluated on the rows of the first one, where its columns are not. -/
theorem not_denotes : ¬ ∀ (db : DbMeta) (tables : List String) (svConds : List BinaryExpr) (conds : List Condition), db.Ok →
    tables ≠ [] → tables.Nodup → checkClause db tables (getClause svConds) = .ok conds →
    ∃ plan, makeOneRel db tables conds = .ok plan ∧ Denotes db tables conds plan := by
  intro hall
  obtain ⟨plan, hplan, h⟩ := hall twoTables ["a", "b"] [⟨⟨"b", "y"⟩, .eq, .col ⟨"b", "y"⟩⟩] [colCond ⟨"b", "y"⟩ .eq ⟨"b", "y"⟩]
    twoTables_ok (by decide) (by decide) rfl
  obtain rfl : plan = .join (.scan .seqScan "b" [] []) (.scan .seqScan "a" [colCond ⟨"b", "y"⟩ .eq ⟨"b", "y"⟩] []) [] :=
    (Except.ok.inj (Eq.trans (by rfl) hplan)).symm
  have hfits : RowsFit twoTables fun _ => [[1, 0, 0, 0]] := by
    intro t tab htab rec hrec
    obtain rfl := List.mem_singleton.mp hrec
    rcases twoTables_cases htab with ⟨-, rfl⟩ | ⟨-, rfl⟩ <;> exact ⟨rfl, by simp⟩
  obtain ⟨rows, hrows, -⟩ := h.rows _ hfits
  have herror : planRows twoTables (fun _ => [[1, 0, 0, 0]])
      (.join (.scan .seqScan "b" [] []) (.scan .seqScan "a" [colCond ⟨"b", "y"⟩ .eq ⟨"b", "y"⟩] []) []) =
      .error (.columnNotFound "b.y") := rfl
  rw [herror] at hrows
  cases hrows

end Rmdb.Execution
