import Rmdb.Common.Value

/-!
# Choosing an index

`Planner::get_index_cols`: the index with the longest prefix of columns that the
conditions bound, where every column of the prefix but the last is bound by an equality.
Of several indexes with the longest prefix it takes the first.
-/

namespace Rmdb.Optimizer

/-- Does the condition compare the column of that table and name with a value? -/
def onCol (tabName colName : String) (cond : Condition) : Bool :=
  cond.isRhsVal && cond.lhsCol.tabName = tabName && cond.lhsCol.colName = colName

/-- `has_eq`. -/
def hasEq (tabName : String) (conds : List Condition) (col : ColMeta) : Bool :=
  conds.any fun cond => onCol tabName col.name cond && cond.op = .eq

/-- `has_range`. -/
def hasRange (tabName : String) (conds : List Condition) (col : ColMeta) : Bool :=
  conds.any fun cond =>
    onCol tabName col.name cond && (cond.op = .lt || cond.op = .le || cond.op = .gt || cond.op = .ge)

/-- `prefix`: how many columns of an index the conditions bound. -/
def boundPrefix (tabName : String) (conds : List Condition) : List ColMeta → ℕ
  | [] => 0
  | col :: cols =>
    if hasEq tabName conds col then boundPrefix tabName conds cols + 1
    else if hasRange tabName conds col then 1
    else 0

/-- One round of the loop over the indexes: the best prefix so far, and the columns of its index. -/
def betterIndex (tabName : String) (conds : List Condition) (best : ℕ × List String) (index : IndexMeta) :
    ℕ × List String :=
  let bound := boundPrefix tabName conds index.cols
  if best.1 < bound then (bound, index.colNames) else best

/-- `get_index_cols`: the names of the columns of the index, or `none` for `false`. -/
def getIndexCols (tab : TabMeta) (currConds : List Condition) : Option (List String) :=
  let best := tab.indexes.foldl (betterIndex tab.name currConds) (0, [])
  if best.1 = 0 then none else some best.2

/-- The best index is none, or one of the table's. -/
theorem foldl_betterIndex {tabName : String} {conds : List Condition} {all indexes : List IndexMeta}
    (hsub : ∀ index ∈ indexes, index ∈ all) {best : ℕ × List String}
    (hbest : best.1 = 0 ∨ ∃ index ∈ all, best.2 = index.colNames) :
    (indexes.foldl (betterIndex tabName conds) best).1 = 0 ∨
      ∃ index ∈ all, (indexes.foldl (betterIndex tabName conds) best).2 = index.colNames := by
  induction indexes generalizing best with
  | nil => exact hbest
  | cons index indexes ih =>
    refine ih (fun i hi => hsub i (List.mem_cons_of_mem _ hi)) ?_
    unfold betterIndex
    by_cases hlt : best.1 < boundPrefix tabName conds index.cols
    · rw [if_pos hlt]
      exact Or.inr ⟨index, hsub index List.mem_cons_self, rfl⟩
    · rw [if_neg hlt]
      exact hbest

/-- The chosen columns are those of an index of the table, so `get_index_meta` finds one. -/
theorem getIndexMeta_of_getIndexCols {tab : TabMeta} {conds : List Condition} {colNames : List String}
    (h : getIndexCols tab conds = some colNames) : ∃ index, tab.getIndexMeta colNames = .ok index := by
  simp only [getIndexCols] at h
  split_ifs at h with h0
  obtain ⟨index, hmem, heq⟩ := (foldl_betterIndex (fun _ hi => hi) (Or.inl rfl)).resolve_left h0
  have hname : index.colNames = colNames := heq.symm.trans (Option.some.inj h)
  have hsome : (tab.indexes.find? (·.colNames = colNames)).isSome :=
    List.find?_isSome.mpr ⟨index, hmem, decide_eq_true hname⟩
  obtain ⟨found, hfound⟩ := Option.isSome_iff_exists.mp hsome
  refine ⟨found, ?_⟩
  unfold TabMeta.getIndexMeta
  rw [hfound]

end Rmdb.Optimizer
