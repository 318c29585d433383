import Rmdb.Execution.Exact
import Rmdb.Execution.Meaning
import Rmdb.Execution.Sum
import Mathlib.Algebra.Order.BigOperators.Group.Multiset

/-!
# The order of the rows

Sorting and aggregates take the rows as they come, which is the order in which the records are stored. Of a `SELECT`
without aggregates it decides the order of the rows that are returned, and nothing else. A count, and the greatest or least
value of a column, do not depend on it, and neither does a sum of an `INT` column that a `double` adds up exactly.

It is otherwise with `FLOAT`. An addition of doubles rounds, so that a sum depends on the order of the rows; and of the values that
compare equal `MAX` and `MIN` keep the first, which tells the two zeros apart. `Exact` leaves these out
(`orderFree_of_exact`).

The records of every table have the length that the catalog says, and statements keep it so (`BagsFit`).
-/

namespace Rmdb.Execution

open Lib Record Index Optimizer
open Function (update)
open Rmdb.Parser (AggFuncType)

/-! ### Values that are kept -/

section Kept

variable {funcType : AggFuncType} {cmp cmp' : Bytes → Bytes → ℤ} {values values' : List Bytes}

theorem kept_congr (h : ∀ a ∈ values, ∀ b ∈ values, cmp a b = cmp' a b) : kept funcType cmp values = kept funcType cmp' values := by
  induction values using List.reverseRecOn with
  | nil => rfl
  | append_singleton values w ih =>
    have hw : w ∈ values ++ [w] := List.mem_append_right _ (List.mem_singleton_self w)
    rw [kept_concat, kept_concat, ← ih fun a ha b hb => h a (List.mem_append_left _ ha) b (List.mem_append_left _ hb)]
    rcases hold : kept funcType cmp values with _ | old
    · rfl
    · rw [keep, keep, h w hw old (List.mem_append_left _ (mem_of_kept hold))]

/-- **The value that is kept does not depend on the order**, where those that compare equal are the same. -/
theorem kept_perm (hf : funcType = .max ∨ funcType = .min) (hcmp : ThreeWay cmp)
    (hsep : ∀ a ∈ values, ∀ b ∈ values, cmp a b = 0 → a = b) (hperm : values.Perm values') :
    kept funcType cmp values = kept funcType cmp values' := by
  rcases eq_or_ne values [] with rfl | hne
  · rw [hperm.nil_eq]
  · have hne' : values' ≠ [] := fun hnil => hne (List.perm_nil.mp (hnil ▸ hperm))
    obtain ⟨v, hv, hextreme⟩ : ∃ v, kept funcType cmp values = some v ∧ Extreme funcType cmp values v := extreme_kept hcmp hne
    obtain ⟨v', hv', hextreme'⟩ : ∃ v, kept funcType cmp values' = some v ∧ Extreme funcType cmp values' v := extreme_kept hcmp hne'
    have hback : Extreme funcType cmp values v' := hextreme'.perm hperm
    rw [hv, hv', hsep v hextreme.1 v' hback.1 (hextreme.unique hf hcmp hback)]

end Kept

/-! ### The value of a call -/

/-- What a call makes of a column does not depend on the order of the rows. A column that is added up is no `FLOAT`; if it is an
`INT`, a `double` holds what is added up, and the sum is an `int`. A column that is compared is no `FLOAT`, or has no NaN and no
`-0.0`. -/
def ColExact (funcType : AggFuncType) (src : ColMeta) (rows : Multiset Bytes) : Prop :=
  match funcType with
  | .count => True
  | .sum => src.type ≠ .float ∧ (src.type = .int → (rows.map fun rec => |leInt 4 (src.read rec)|).sum ≤ 2 ^ 53 ∧
      InInt (rows.map fun rec => leInt 4 (src.read rec)).sum)
  | .max | .min => src.type = .float → ∀ rec ∈ rows, isNaN32 (leNat 4 (src.read rec)) = false ∧ leNat 4 (src.read rec) ≠ 2 ^ 31

/-- Away from the NaNs the rank tells all singles but the zeros apart. -/
theorem floatRank_inj {m n : ℕ} (hm : m ≠ 2 ^ 31) (hn : n ≠ 2 ^ 31) (h : floatRank m = floatRank n) : m = n := by
  unfold floatRank at h
  split_ifs at h <;> omega

section Value

variable {D : DoubleOps} {isInt : D.carrier → ℤ → Prop} {prevCols : List ColMeta} {rows rows' : List Bytes} {src : ColMeta}

/-- The value that is kept of a column that is no `FLOAT`. -/
theorem kept_read_perm {funcType : AggFuncType} (hf : funcType = .max ∨ funcType = .min) (hkey : KeyCol src.shape)
    {values values' : List Bytes} (hlen : ∀ a ∈ values, a.length = src.len) (hperm : values.Perm values') :
    kept funcType (aggCmp src.type src.len) values = kept funcType (aggCmp src.type src.len) values' := by
  refine kept_perm hf (threeWay_aggCmp hkey) ?_ hperm
  intro a ha b hb hzero
  exact eq_of_aggCmp_eq_zero hkey (hlen a ha) (hlen b hb) hzero

/-- The value that is kept of singles among which there is no NaN and no `-0.0`. -/
theorem kept_float_perm {funcType : AggFuncType} (hf : funcType = .max ∨ funcType = .min) {values values' : List Bytes}
    (hlen : ∀ a ∈ values, a.length = 4) (hgood : ∀ a ∈ values, isNaN32 (leNat 4 a) = false ∧ leNat 4 a ≠ 2 ^ 31)
    (hperm : values.Perm values') : kept funcType compareFloat values = kept funcType compareFloat values' := by
  have hcmp : ∀ a ∈ values, ∀ b ∈ values, compareFloat a b = sign3 (floatRank (leNat 4 a)) (floatRank (leNat 4 b)) :=
    fun a ha b hb => by
      rw [compareFloat, (hgood a ha).1, (hgood b hb).1, Bool.or_self, if_neg Bool.false_ne_true]
  rw [kept_congr hcmp, kept_congr fun a ha b hb => hcmp a (hperm.mem_iff.mpr ha) b (hperm.mem_iff.mpr hb)]
  refine kept_perm hf (ThreeWay.of_sign3.comap fun a : Bytes => floatRank (leNat 4 a)) ?_ hperm
  intro a ha b hb hzero
  have hnat : leNat 4 a = leNat 4 b := floatRank_inj (hgood a ha).2 (hgood b hb).2 (sign3_eq_zero.mp hzero)
  have htake := leNat_inj (le_of_eq (hlen a ha).symm) (le_of_eq (hlen b hb).symm) hnat
  rwa [List.take_of_length_le (le_of_eq (hlen a ha)), List.take_of_length_le (le_of_eq (hlen b hb))] at htake

/-- The greatest or least value of a column. -/
theorem aggExtreme_perm {funcType : AggFuncType} (hf : funcType = .max ∨ funcType = .min) (hvalue : ValueCol src.shape)
    (hlen : ∀ rec ∈ rows, (src.read rec).length = src.len) (hexact : ColExact funcType src rows) (hperm : rows.Perm rows') :
    aggExtreme funcType src rows = aggExtreme funcType src rows' := by
  have hlens : ∀ a ∈ rows.map src.read, a.length = src.len := fun a ha => by
    obtain ⟨rec, hrec, rfl⟩ := List.mem_map.mp ha
    exact hlen rec hrec
  have hkept : kept funcType (aggCmp src.type src.len) (rows.map src.read) =
      kept funcType (aggCmp src.type src.len) (rows'.map src.read) := by
    rcases hvalue with hkey | hfloat
    · exact kept_read_perm hf hkey hlens (hperm.map src.read)
    · obtain ⟨htype, hfour⟩ := Prod.mk.inj hfloat
      rw [htype]
      refine kept_float_perm hf (fun a ha => (hlens a ha).trans hfour) ?_ (hperm.map src.read)
      intro a ha
      obtain ⟨rec, hrec, rfl⟩ := List.mem_map.mp ha
      rcases hf with rfl | rfl
      · exact hexact htype rec hrec
      · exact hexact htype rec hrec
  rw [aggExtreme, aggExtreme, hkept]

/-- A partial sum is no larger than the absolute values together. -/
theorem abs_sum_prefix_le {l l' : List ℤ} (h : l' <+: l) : |l'.sum| ≤ (l.map (|·|)).sum := by
  obtain ⟨rest, rfl⟩ := h
  induction l' with
  | nil =>
    rw [List.sum_nil, abs_zero]
    exact List.sum_nonneg fun x hx => by
      obtain ⟨y, -, rfl⟩ := List.mem_map.mp hx
      exact abs_nonneg y
  | cons x l' ih =>
    rw [List.sum_cons, List.cons_append, List.map_cons, List.sum_cons]
    exact (abs_add_le x l'.sum).trans (add_le_add_right ih |x|)

/-- The sum of an `INT` column is its sum. -/
theorem toInt_aggSum (hD : D.Ieee isInt) (htype : src.type = .int) (hexact : ColExact .sum src rows) :
    D.toInt (aggSum D src rows) = ((rows : Multiset Bytes).map fun rec => leInt 4 (src.read rec)).sum := by
  obtain ⟨habs, hint⟩ := hexact.2 htype
  rw [Multiset.map_coe, Multiset.sum_coe] at habs hint ⊢
  have hround : roundedSum 53 (intValues src rows) = (intValues src rows).sum := by
    refine roundedSum_eq_sum (by decide) fun l' hl' => (abs_sum_prefix_le hl').trans ?_
    rwa [intValues, List.map_map]
  have hacc : isInt (aggSum D src rows) (intValues src rows).sum := hround ▸ isInt_aggSum hD htype
  exact hD.toInt _ _ hacc hint

/-- **The value of a call does not depend on the order of the rows.** -/
theorem aggValue_perm (hD : D.Ieee isInt) (hvalue : ∀ col ∈ prevCols, ValueCol col.shape) (hrows : ∀ rec ∈ rows, RecOk prevCols rec)
    {aggs : List AggCall} (hsums : SumsOk prevCols aggs) {agg : AggCall} (hagg : agg ∈ aggs)
    (hexact : ∀ src, getCol prevCols agg.col = .ok src → ColExact agg.funcType src rows) (hperm : rows.Perm rows') :
    aggValue D prevCols rows agg = aggValue D prevCols rows' agg := by
  have hcoe : (rows : Multiset Bytes) = rows' := Multiset.coe_eq_coe.mpr hperm
  rw [aggValue, aggValue]
  by_cases hcount : agg.funcType = .count
  · rw [if_pos hcount, if_pos hcount, hperm.length_eq]
  rw [if_neg hcount, if_neg hcount]
  rcases hsrc : getCol prevCols agg.col with e | src
  · rfl
  have hexact := hexact src hsrc
  simp only
  by_cases hsum : agg.funcType = .sum
  · rw [hsum] at hexact
    have htype : src.type = .int := (hsums agg hagg hsum src hsrc).2.resolve_right hexact.1
    rw [if_pos hsum, if_pos hsum, if_pos htype, if_pos htype, toInt_aggSum hD htype hexact,
      toInt_aggSum hD htype (hcoe ▸ hexact), hcoe]
  · have hf : agg.funcType = .max ∨ agg.funcType = .min := by
      cases h : agg.funcType with
      | count => exact absurd h hcount
      | sum => exact absurd h hsum
      | max => exact .inl rfl
      | min => exact .inr rfl
    rw [if_neg hsum, if_neg hsum]
    refine aggExtreme_perm hf (hvalue src (getCol_spec hsrc).1) ?_ hexact hperm
    intro rec hrec
    exact ColMeta.length_read (hrows rec hrec src (getCol_spec hsrc).1)

/-! ### The row that is returned -/

/-- A sum of a column that cannot be added up fails at the first row. -/
theorem sumsOk_of_aggRow {rec : Bytes} (hvalue : ∀ col ∈ prevCols, ValueCol col.shape) : ∀ {aggs : List AggCall} {cols : List ColMeta}
    {accs : List (AggAcc D)} {result : Bytes} {out : List (AggAcc D) × Bytes}, cols.length = aggs.length →
    accs.length = aggs.length → aggRow prevCols rec (aggs.zip cols) accs result = .ok out → SumsOk prevCols aggs
  | [], _, _, _, _, _, _, _ => fun agg hagg => by cases hagg
  | agg :: aggs, col :: cols, acc :: accs, result, out, hcols, haccs, h => by
    rw [List.zip_cons_cons, aggRow] at h
    obtain ⟨⟨acc₁, result₁⟩, hstep, h⟩ := Analyze.bind_eq_ok h
    obtain ⟨⟨accs₁, result₂⟩, hrow, -⟩ := Analyze.bind_eq_ok h
    intro agg₁ hagg₁ hsum src hsrc
    rcases List.mem_cons.mp hagg₁ with rfl | hagg₁
    · rw [aggStep, if_neg (by rw [hsum]; decide), hsrc] at hstep
      simp only [bind, Except.bind, if_pos hsum] at hstep
      have hshape := hvalue src (getCol_spec hsrc).1
      by_cases hint : src.type = .int
      · refine ⟨?_, .inl hint⟩
        rcases hshape with hkey | hfloat
        · rw [ColMeta.shape, hint] at hkey
          exact hkey
        · rw [ColMeta.shape, hint] at hfloat
          cases hfloat
      · by_cases hfloat : src.type = .float
        · refine ⟨?_, .inr hfloat⟩
          rcases hshape with hkey | hfour
          · exact absurd hfloat hkey.ne_float
          · exact (Prod.mk.inj hfour).2
        · rw [if_neg hint, if_neg hfloat] at hstep
          cases hstep
    · exact sumsOk_of_aggRow hvalue (Nat.succ.inj hcols) (Nat.succ.inj haccs) hrow agg₁ hagg₁ hsum src hsrc

theorem sumsOk_of_aggResult {aggs : List AggCall} {cols : List ColMeta} {res rec : Bytes} (hvalue : ∀ col ∈ prevCols, ValueCol col.shape)
    (hcols : aggCols prevCols 0 aggs = .ok cols) (h : aggResult D prevCols aggs cols (rec :: rows) = .ok res) :
    SumsOk prevCols aggs := by
  obtain ⟨out, hfold, -⟩ := Analyze.bind_eq_ok h
  rw [List.map_cons, List.foldlM_cons] at hfold
  obtain ⟨out₁, hrow, -⟩ := Analyze.bind_eq_ok hfold
  exact sumsOk_of_aggRow hvalue (length_aggCols hcols) (List.length_map _) hrow

/-- **The row of aggregates** does not depend on the order of the rows. -/
theorem aggResult_perm (hD : D.Ieee isInt) (hvalue : ∀ col ∈ prevCols, ValueCol col.shape) (hrows : ∀ rec ∈ rows, RecOk prevCols rec)
    {aggs : List AggCall} (hexact : ∀ agg ∈ aggs, ∀ src, getCol prevCols agg.col = .ok src → ColExact agg.funcType src rows)
    (hperm : rows.Perm rows') {cols : List ColMeta} (hcols : aggCols prevCols 0 aggs = .ok cols) {res res' : Bytes}
    (h : aggResult D prevCols aggs cols rows = .ok res) (h' : aggResult D prevCols aggs cols rows' = .ok res') : res = res' := by
  cases rows with
  | nil =>
    rw [← hperm.nil_eq] at h'
    exact Except.ok.inj (h.symm.trans h')
  | cons rec rows =>
    have hsums := sumsOk_of_aggResult hvalue hcols h
    have heq := (aggResult_eq_iff D hcols hsums hvalue hrows fun rec hrec => hrows rec (hperm.mem_iff.mpr hrec)).mpr
      fun agg hagg => aggValue_perm hD hvalue hrows hsums hagg (hexact agg hagg) hperm
    exact Except.ok.inj (h.symm.trans (heq.trans h'))

end Value

/-! ### The records of the tables -/

/-- The columns of every table lie inside its records, and these have the length that the catalog says. -/
def BagsFit (db : DbMeta) (bags : Bags) : Prop :=
  ∀ k tab, db.tabs k = some tab →
    (∀ c ∈ tab.cols, c.offset + c.len ≤ tab.recordSize) ∧ ∀ rec ∈ bags k, rec.length = tab.recordSize

section Fits

variable {db : DbMeta} {bags bags' : Bags}

/-- The columns of a plan lie inside its rows. -/
theorem BagsFit.planCols (h : BagsFit db bags) : ∀ {plan : Plan}, ∀ c ∈ planCols db plan, c.offset + c.len ≤ planLen db plan
  | .scan _ tabName _ _, c, hc => by
    rcases htab : db.tabs tabName with _ | tab
    · rw [Execution.planCols, htab] at hc
      cases hc
    · rw [Execution.planCols, htab] at hc
      rw [planLen, htab]
      exact (h tabName tab htab).1 c hc
  | .join left right _, c, hc => by
    rw [Execution.planCols] at hc
    rw [planLen]
    rcases List.mem_append.mp hc with hc | hc
    · exact (h.planCols c hc).trans (Nat.le_add_right _ _)
    · obtain ⟨c', hc', rfl⟩ := List.mem_map.mp hc
      have hfit := h.planCols c' hc'
      simp only
      omega

/-- The rows of a plan have its length. -/
theorem BagsFit.length_row (h : BagsFit db bags) : ∀ {plan : Plan}, ∀ rec ∈ planBag db bags plan, rec.length = planLen db plan
  | .scan _ tabName _ _, rec, hrec => by
    rcases htab : db.tabs tabName with _ | tab
    · rw [planBag, htab] at hrec
      cases hrec
    · rw [planBag, htab] at hrec
      rw [planLen, htab]
      exact (h tabName tab htab).2 rec (Multiset.mem_of_mem_filter hrec)
  | .join left right conds, rec, hrec => by
    rw [planBag, productRows] at hrec
    obtain ⟨⟨l, r⟩, hpair, rfl⟩ := Multiset.mem_map.mp hrec
    obtain ⟨hl, hr⟩ := Multiset.mem_product.mp (Multiset.mem_of_mem_filter hpair)
    simp only [joinTuple, planParams, List.length_append, List.length_take, h.length_row l hl, h.length_row r hr, planLen, min_self]

/-- The record of an `INSERT` has the length of the table's records. -/
theorem length_fillRecord {n : ℕ} : ∀ {cells : List (ColMeta × Value)} {rec out : Bytes},
    (∀ x ∈ cells, x.1.offset + x.1.len ≤ n) → rec.length = n → fillRecord cells rec = .ok out → out.length = n
  | [], rec, out, _, hlen, h => Except.ok.inj h ▸ hlen
  | (col, val) :: rest, rec, out, hfit, hlen, h => by
    rw [fillRecord] at h
    split at h
    · cases h
    · obtain ⟨val', -, h⟩ : ∃ val', (if val.raw.isNone then val.initRaw col.len else .ok val) = .ok val' ∧
          fillRecord rest (put rec col.offset ((val'.raw.getD []).take col.len)) = .ok out := by
        split at h
        · next hnone =>
          obtain ⟨val', hval, h⟩ := Analyze.bind_eq_ok h
          exact ⟨val', by rw [if_pos hnone, hval], h⟩
        · next hsome => exact ⟨val, by rw [if_neg hsome], h⟩
      have hin := hfit _ List.mem_cons_self
      have htake : ((val'.raw.getD []).take col.len).length ≤ col.len := List.length_take_le _ _
      refine length_fillRecord (fun x hx => hfit x (List.mem_cons_of_mem _ hx)) ?_ h
      rw [length_put (by simp only at hin; omega), hlen]

theorem length_makeRecord {tab : TabMeta} {values : List Value} {rec : Bytes} (hfit : ∀ c ∈ tab.cols, c.offset + c.len ≤ tab.recordSize)
    (h : makeRecord tab values = .ok rec) : rec.length = tab.recordSize := by
  rw [makeRecord] at h
  split at h
  · cases h
  · exact length_fillRecord (fun x hx => hfit x.1 (List.of_mem_zip hx).1) List.length_replicate h

theorem length_newRecord {tab : TabMeta} (setClauses : List SetClause) {rec : Bytes} (hfit : Fits tab rec) :
    (newRecord tab setClauses rec).length = rec.length := by
  rw [newRecord]
  split
  · next new hset => exact length_setRecord hfit hset
  · rfl

theorem BagsFit.update (h : BagsFit db bags) {k : String} {tab : TabMeta} (htab : db.tabs k = some tab) {bag : Multiset Bytes}
    (hbag : ∀ rec ∈ bag, rec.length = tab.recordSize) : BagsFit db (update bags k bag) := by
  intro k' tab' htab'
  refine ⟨(h k' tab' htab').1, ?_⟩
  intro rec hrec
  by_cases hk : k' = k
  · subst hk
    obtain rfl := Option.some.inj (htab.symm.trans htab')
    rw [Function.update_self] at hrec
    exact hbag rec hrec
  · rw [Function.update_of_ne hk] at hrec
    exact (h k' tab' htab').2 rec hrec

variable {D : DoubleOps} {std : StdSort} {stmt : DMLPlan} {result : List Bytes}

/-- **A statement** keeps the lengths of the records. -/
theorem Means.fit (h : Means db D std bags stmt result bags') (hfit : BagsFit db bags) : BagsFit db bags' := by
  cases h with
  | select => exact hfit
  | @insert tabName values tab rec htab hrec =>
    obtain ⟨hcols, hlen⟩ := hfit tabName tab htab
    refine hfit.update htab ?_
    intro rec' hrec'
    rcases Multiset.mem_cons.mp hrec' with rfl | hrec'
    · exact length_makeRecord hcols hrec
    · exact hlen rec' hrec'
  | @update tag tabName conds indexColNames setClauses tab bag htab hbag =>
    obtain ⟨hcols, hlen⟩ := hfit tabName tab htab
    refine hfit.update htab ?_
    intro rec' hrec'
    rw [hbag] at hrec'
    obtain ⟨rec, hrec, rfl⟩ := Multiset.mem_map.mp hrec'
    have hrecLen := hlen rec hrec
    split_ifs
    · rw [length_newRecord setClauses fun c hc => (hcols c hc).trans hrecLen.ge, hrecLen]
    · exact hrecLen
  | @delete tag tabName conds indexColNames tab htab =>
    exact hfit.update htab fun rec hrec => (hfit tabName tab htab).2 rec (Multiset.mem_of_mem_filter hrec)

theorem MeansAll.fit : ∀ {work : List (DMLPlan × List Bytes)} {bags bags' : Bags}, MeansAll db D std bags work bags' →
    BagsFit db bags → BagsFit db bags'
  | [], _, _, h, hfit => (show _ = _ from h) ▸ hfit
  | _ :: _, _, _, ⟨_, hone, h⟩, hfit => h.fit (hone.fit hfit)

end Fits

/-! ### Statements -/

/-- A `SELECT` does not add up a `FLOAT` column, and compares none with a NaN or a `-0.0`; its sums are exact. -/
def DMLPlan.Exact (db : DbMeta) (bags : Bags) : DMLPlan → Prop
  | select subplan query => ∀ agg ∈ query.aggs, ∀ src, getCol (planCols db subplan) agg.col = .ok src →
      ColExact agg.funcType src (planBag db bags subplan)
  | _ => True

section Statements

variable {db : DbMeta} {D : DoubleOps} {isInt : D.carrier → ℤ → Prop} {std : StdSort} {bags : Bags}

theorem ColMeta.LenOk.valueCol {c : ColMeta} (h : c.LenOk) : ValueCol c.shape := by
  obtain ⟨tabName, name, type, len, offset⟩ := c
  cases type with
  | float => exact .inr (congrArg (Prod.mk ColType.float) h)
  | int | string | bigint | datetime => exact .inl h

theorem valueCol_planCols (hdb : db.Ok) : ∀ {plan : Plan}, ∀ c ∈ planCols db plan, ValueCol c.shape
  | .scan _ tabName _ _, c, hc => by
    rcases htab : db.tabs tabName with _ | tab
    · rw [planCols, htab] at hc
      cases hc
    · rw [planCols, htab] at hc
      exact ColMeta.LenOk.valueCol ((hdb.tabs htab).2.cols c hc).2
  | .join left right _, c, hc => by
    rw [planCols] at hc
    rcases List.mem_append.mp hc with hc | hc
    · exact valueCol_planCols hdb c hc
    · obtain ⟨c', hc', rfl⟩ := List.mem_map.mp hc
      exact valueCol_planCols hdb c' hc'

theorem sortRows_perm {cols : List ColMeta} {order : Option (List (TabCol × Bool))} {rows rows₁ : List Bytes}
    (h : sortRows std cols order rows = .ok rows₁) : rows₁.Perm rows := by
  cases order with
  | none =>
    cases h
    exact .refl _
  | some items =>
    rw [sortRows] at h
    cases hcols : getCols cols (items.map (·.1)) with
    | error e =>
      rw [hcols] at h
      cases h
    | ok sortCols =>
      rw [hcols] at h
      cases h
      exact std.perm _ _

/-- **What a statement returns does not depend on the order of the rows below it**, unless it computes with `FLOAT`. -/
theorem DMLPlan.orderFree_of_exact (hD : D.Ieee isInt) (hdb : db.Ok) (hfit : BagsFit db bags) {stmt : DMLPlan}
    (hexact : stmt.Exact db bags) : stmt.OrderFree db D std bags := by
  cases stmt with
  | select subplan query =>
    intro rows rows' result result' hbag hperm h h'
    obtain ⟨rows₁, hrows₁, h⟩ := Analyze.bind_eq_ok h
    obtain ⟨rows₂, hrows₂, h'⟩ := Analyze.bind_eq_ok h'
    have hsame : rows₁.Perm rows₂ := ((sortRows_perm hrows₁).trans hperm).trans (sortRows_perm hrows₂).symm
    have hbag₁ : (rows₁ : Multiset Bytes) = planBag db bags subplan := (Multiset.coe_eq_coe.mpr (sortRows_perm hrows₁)).trans hbag
    by_cases haggs : query.aggs = []
    · -- the same rows, projected
      rw [if_neg (not_not.mpr haggs)] at h h'
      obtain ⟨outCols, hout, h⟩ := Analyze.bind_eq_ok h
      obtain ⟨outCols', hout', h'⟩ := Analyze.bind_eq_ok h'
      obtain rfl := Except.ok.inj (hout.symm.trans hout')
      cases h
      cases h'
      exact hsame.map _
    · rw [if_pos haggs] at h h'
      obtain ⟨cols, hcols, h⟩ := Analyze.bind_eq_ok h
      obtain ⟨cols', hcols', h'⟩ := Analyze.bind_eq_ok h'
      obtain rfl := Except.ok.inj (hcols.symm.trans hcols')
      obtain ⟨res, hres, h⟩ := Analyze.bind_eq_ok h
      obtain ⟨res', hres', h'⟩ := Analyze.bind_eq_ok h'
      cases h
      cases h'
      have hrows : ∀ rec ∈ rows₁, RecOk (planCols db subplan) rec := fun rec hrec c hc => by
        rw [hfit.length_row rec (hbag₁ ▸ Multiset.mem_coe.mpr hrec)]
        exact hfit.planCols c hc
      have hexact' : ∀ agg ∈ query.aggs, ∀ src, getCol (planCols db subplan) agg.col = .ok src →
          ColExact agg.funcType src rows₁ := fun agg hagg src hsrc => hbag₁ ▸ hexact agg hagg src hsrc
      rw [aggResult_perm hD (valueCol_planCols hdb) hrows hexact' hsame hcols hres hres']
  | insert | update | delete => trivial

end Statements

end Rmdb.Execution
