import Rmdb.Execution.CreateIndex
import Rmdb.Execution.Portal
import Rmdb.Lib.Bag
import Mathlib.Data.Set.Piecewise

/-!
# What statements mean

The meaning of a statement on tables that are bags of records, wherever these are stored (`Means`): an
`INSERT` adds a record, an `UPDATE` changes the records that its scan picks, a `DELETE` removes them, and a `SELECT`
returns what its plan makes of the bags. Sorting and aggregates take the rows as they come; so a `SELECT` may
return what comes out for some order of the rows.

Which records a scan picks does not depend on where they are: a sequential scan picks those that satisfy the
conditions, an index scan those of them with a key between its bounds. `DMLPlan.means`: a statement that runs alone on
tables in order does what it means.
-/

namespace Rmdb.Execution

open Lib Record Index Optimizer
open Function (update)

/-! ### Bags of records -/

/-- The records of every table. -/
abbrev Bags := String → Multiset Bytes

/-- The conditions evaluate to true. -/
def meets (cols : List ColMeta) (conds : List Condition) (rec : Bytes) : Bool :=
  match evalConds cols rec conds with
  | .ok b => b
  | .error _ => false

/-- The key of the record is between the bounds of an index scan. -/
def inBounds (index : IndexMeta) (conds : List Condition) (rec : Bytes) : Bool :=
  keyVal index.shape (scanKeys conds false index.cols).1 ≤ index.key rec ∧
    index.key rec ≤ keyVal index.shape (scanKeys conds false index.cols).2

/-- A scan picks the record. -/
def picks (tab : TabMeta) (tag : ScanTag) (tabName : String) (conds : List Condition) (indexColNames : List String)
    (rec : Bytes) : Bool :=
  match tag with
  | .seqScan => meets tab.cols conds rec
  | .indexScan =>
    match tab.getIndexMeta indexColNames, feedConds tabName conds with
    | .ok index, .ok conds => inBounds index conds rec && meets tab.cols conds rec
    | _, _ => false

/-- The join conditions evaluate to true. -/
def meetsJoin (p : JoinParams) (leftRec rightRec : Bytes) : Bool :=
  match evalJoinConds p.leftCols p.rightCols leftRec rightRec p.fedConds with
  | .ok b => b
  | .error _ => false

/-- The rows of a plan. -/
def planBag (db : DbMeta) (bags : Bags) : Plan → Multiset Bytes
  | .scan tag tabName conds indexColNames =>
    match db.tabs tabName with
    | some tab => (bags tabName).filter (picks tab tag tabName conds indexColNames ·)
    | none => 0
  | .join left right conds =>
    let p := planParams db left right conds
    productRows p (meetsJoin p) (planBag db bags left) (planBag db bags right)

/-- What an `UPDATE` makes of a record. -/
def newRecord (tab : TabMeta) (setClauses : List SetClause) (rec : Bytes) : Bytes :=
  match setRecord tab setClauses rec with
  | .ok new => new
  | .error _ => rec

/-- In every index of the table the records have different keys. -/
def UniqueKeys (tab : TabMeta) (bag : Multiset Bytes) : Prop := ∀ index ∈ tab.indexes, (bag.map index.key).Nodup

section Meaning

variable (db : DbMeta) (D : DoubleOps) (std : StdSort)

/-- **The meaning of a statement**: what it returns, and the bags after it. -/
inductive Means (bags : Bags) : DMLPlan → List Bytes → Bags → Prop where
  /-- Without a `LIMIT`, the rows of the plan, in some order, sorted, aggregated or projected. -/
  | select {subplan query result} {rows : List Bytes} : query.limit = -1 → (rows : Multiset Bytes) = planBag db bags subplan →
      selectRows D std (planCols db subplan) query rows = .ok result → Means bags (.select subplan query) result bags
  /-- One record more. -/
  | insert {tabName values tab rec} : db.tabs tabName = some tab → makeRecord tab values = .ok rec →
      UniqueKeys tab (rec ::ₘ bags tabName) →
      Means bags (.insert tabName values) [] (update bags tabName (rec ::ₘ bags tabName))
  /-- The records that are picked are changed. -/
  | update {tag tabName conds indexColNames setClauses tab bag} : db.tabs tabName = some tab →
      bag = (bags tabName).map (fun rec =>
        if picks tab tag tabName conds indexColNames rec then newRecord tab setClauses rec else rec) →
      UniqueKeys tab bag →
      Means bags (.update tag tabName conds indexColNames setClauses) [] (update bags tabName bag)
  /-- The records that are picked are removed. -/
  | delete {tag tabName conds indexColNames tab} : db.tabs tabName = some tab →
      Means bags (.delete tag tabName conds indexColNames) []
        (update bags tabName ((bags tabName).filter fun rec => ¬ picks tab tag tabName conds indexColNames rec))

end Meaning

/-! ### What scans pick -/

/-- A table in order, in agreement with its indexes, with its records. -/
structure Stands (db : DbMeta) (name : String) (bag : Multiset Bytes) (t : Table) : Prop where
  ok : t.Ok
  agrees : t.Agrees
  named : t.tab.name = name
  tab : db.tabs name = some t.tab
  stores : Stores t.fh.records bag

/-- The test of a scan is passed. -/
def passes (f : RmFileHandle) (cols : List ColMeta) (conds : List Condition) (rid : Rid) : Bool :=
  match testRid f cols conds rid with
  | .ok b => b
  | .error _ => false

theorem passes_eq {f : RmFileHandle} {cols : List ColMeta} {conds : List Condition} {rid : Rid} {rec : Bytes}
    (h : f.records rid = some rec) : passes f cols conds rid = meets cols conds rec := by
  simp only [passes, meets, testRid, getRecord_eq h, Except.mapError, bind, Except.bind]

section Scans

variable {db : DbMeta} {objects : String → Option Table} {tabName : String} {t : Table} {bag : Multiset Bytes}
  {cols : List ColMeta} {conds : List Condition}

/-- A scan stops at the rids that the cursor visits and that pass, and goes on from there. -/
theorem run_scanFrom {S : Type} {c : Table → Cursor S RMDBError Rid} (ht : objects tabName = some t) {s s' : S}
    {L : List Rid} (hv : (c t).Visits s L s') : ∀ {rounds : ℕ} {rids : List Rid},
    (scanFrom tabName c cols conds rounds s).run objects = some rids →
    ∃ rounds' rest, (scanFrom tabName c cols conds rounds' s').run objects = some rest ∧
      rids = L.filter (passes t.fh cols conds) ++ rest := by
  induction hv with
  | nil s => exact fun {rounds rids} h => ⟨rounds, rids, h, rfl⟩
  | @cons s s₁ s' r L hend hread hnext _ ih =>
    intro rounds rids h
    cases rounds with
    | zero => cases h
    | succ rounds =>
      simp only [scanFrom, Stream.run, ht, hend, hread, Stream.attempt, Bool.false_eq_true, if_false] at h
      cases htest : testRid t.fh cols conds r with
      | error e =>
        rw [htest] at h
        cases h
      | ok passed =>
        have hpass : passes t.fh cols conds r = passed := by rw [passes, htest]
        simp only [htest] at h
        cases passed with
        | false =>
          simp only [Bool.false_eq_true, if_false, Stream.run, ht, hnext] at h
          obtain ⟨rounds', rest, hrun, rfl⟩ := ih h
          exact ⟨rounds', rest, hrun, by rw [List.filter_cons_of_neg (by simp [hpass])]⟩
        | true =>
          simp only [if_true, Stream.run, ht, hnext, Option.map_eq_some_iff] at h
          obtain ⟨rids', h, rfl⟩ := h
          obtain ⟨rounds', rest, hrun, rfl⟩ := ih h
          exact ⟨rounds', rest, hrun, by rw [List.filter_cons_of_pos hpass, List.cons_append]⟩

/-- At the end of the cursor the scan ends. -/
theorem run_scanFrom_end {S : Type} {cursor : Table → Cursor S RMDBError Rid} (ht : objects tabName = some t) {s : S}
    (hend : (cursor t).isEnd s = true) {rounds : ℕ} {rids : List Rid}
    (h : (scanFrom tabName cursor cols conds rounds s).run objects = some rids) : rids = [] := by
  cases rounds with
  | zero => cases h
  | succ rounds =>
    simp only [scanFrom, Stream.run, ht, hend, if_true] at h
    exact (Option.some.inj h).symm

/-- Where the cursor cannot read the scan fails. -/
theorem run_scanFrom_error {S : Type} {cursor : Table → Cursor S RMDBError Rid} (ht : objects tabName = some t) {s : S}
    {e : RMDBError} (hend : (cursor t).isEnd s = false) (hread : (cursor t).read s = .error e) (rounds : ℕ) :
    (scanFrom tabName cursor cols conds rounds s).run objects = none := by
  cases rounds with
  | zero => rfl
  | succ rounds => simp only [scanFrom, Stream.run, ht, hend, hread, Stream.attempt, Bool.false_eq_true, if_false]

/-- **A sequential scan** stops at the records that meet the conditions. -/
theorem run_seqScanStream (ht : objects tabName = some t) {rids : List Rid}
    (h : (seqScanStream tabName cols conds).run objects = some rids) :
    rids.Nodup ∧ ∀ rid, rid ∈ rids ↔ ∃ rec, t.fh.records rid = some rec ∧ meets cols conds rec = true := by
  obtain ⟨first, last, hfirst, hv, hend⟩ := t.fh.scan_visits
  simp only [seqScanStream, Stream.run, ht, hfirst, Stream.attempt] at h
  obtain ⟨rounds, rest, hrun, rfl⟩ := run_scanFrom (c := fun t => t.fh.rmScan.mapError .record) ht hv.mapError h
  obtain rfl := run_scanFrom_end ht (show (t.fh.rmScan.mapError RMDBError.record).isEnd last = true from hend) hrun
  rw [List.append_nil]
  refine ⟨t.fh.nodup_rids.filter _, ?_⟩
  intro rid
  rw [List.mem_filter, RmFileHandle.mem_rids, Option.isSome_iff_exists]
  constructor
  · rintro ⟨⟨rec, hrec⟩, hpass⟩
    exact ⟨rec, hrec, passes_eq hrec ▸ hpass⟩
  · rintro ⟨rec, hrec, hmeets⟩
    exact ⟨⟨rec, hrec⟩, (passes_eq hrec).trans hmeets⟩

/-- **An index scan** stops at the records with a key between its bounds that meet the conditions. -/
theorem run_indexScanStream (hok : t.Ok) (hagrees : t.Agrees) (ht : objects tabName = some t) {indexColNames : List String} {rids : List Rid}
    (h : (indexScanStream tabName t.tab conds indexColNames).run objects = some rids) :
    rids.Nodup ∧ ∀ rid, rid ∈ rids ↔ ∃ rec, t.fh.records rid = some rec ∧
      picks t.tab .indexScan tabName conds indexColNames rec = true := by
  simp only [picks]
  rw [indexScanStream] at h
  cases hindex : t.tab.getIndexMeta indexColNames with
  | error e =>
    rw [hindex] at h
    cases h
  | ok index =>
  cases hfed : feedConds tabName conds with
  | error e =>
    rw [hindex, hfed] at h
    cases h
  | ok conds =>
  rw [hindex, hfed] at h
  have hmem := TabMeta.getIndexMeta_mem hindex
  obtain ⟨lv, lvls, hinv⟩ := hok.indexes index hmem
  obtain ⟨lo, hlo⟩ : ∃ lo, lo = keyVal index.shape (scanKeys conds false index.cols).1 := ⟨_, rfl⟩
  obtain ⟨hi, hhi⟩ : ∃ hi, hi = keyVal index.shape (scanKeys conds false index.cols).2 := ⟨_, rfl⟩
  obtain ⟨first, last, hfirst, hlast, hvisits, hfails⟩ := hinv.scan_cases lo hi
  simp only [Stream.attempt, Stream.run, ht, ← hlo, ← hhi, hfirst, hlast, boundOf] at h
  have hentries : ∀ e, e ∈ contents lv ↔ ∃ rec, t.fh.records e.2 = some rec ∧ index.key rec = e.1 := fun e => by
    rw [← hagrees index hmem e.1 e.2, Table.entry_eq hinv, hinv.sorted_contents.lookupKey_eq_some]
  by_cases hbad : IxIndexHandle.Crossed lv lo hi ∨ IxIndexHandle.Gap lv lo hi
  · obtain ⟨L, i, hv, -, hend, hread⟩ := hfails hbad
    obtain ⟨rounds, rest, hrun, -⟩ := run_scanFrom (c := fun t => (t.ihs index).ixScan last) ht hv h
    rw [run_scanFrom_error ht hend hread] at hrun
    cases hrun
  · obtain ⟨i, hv, hend⟩ := hvisits (fun hc => hbad (.inl hc)) fun hg => hbad (.inr hg)
    obtain ⟨rounds, rest, hrun, rfl⟩ := run_scanFrom (c := fun t => (t.ihs index).ixScan last) ht hv h
    obtain rfl := run_scanFrom_end ht hend hrun
    rw [List.append_nil]
    have hnd : (IxIndexHandle.between lv lo hi).Nodup := by
      refine List.Nodup.map_on ?_ (List.Nodup.filter _ ?_)
      · intro a ha b hb hab
        obtain ⟨ra, hra, hka⟩ := (hentries a).mp (List.mem_filter.mp ha).1
        obtain ⟨rb, hrb, hkb⟩ := (hentries b).mp (List.mem_filter.mp hb).1
        rw [hab, hrb] at hra
        cases hra
        exact Prod.ext (hka.symm.trans hkb) hab
      · refine hinv.sorted_contents.imp fun {a b} hlt heq => ?_
        rw [heq] at hlt
        exact lt_irrefl _ hlt
    refine ⟨hnd.filter _, ?_⟩
    intro rid
    simp only [List.mem_filter, IxIndexHandle.between, List.mem_map, decide_eq_true_eq, inBounds, ← hlo, ← hhi, Bool.and_eq_true]
    constructor
    · rintro ⟨⟨e, ⟨he, hin⟩, rfl⟩, hpass⟩
      obtain ⟨rec, hrec, hkey⟩ := (hentries e).mp he
      exact ⟨rec, hrec, hkey ▸ hin, passes_eq hrec ▸ hpass⟩
    · rintro ⟨rec, hrec, hin, hmeets⟩
      exact ⟨⟨(index.key rec, rid), ⟨(hentries _).mpr ⟨rec, hrec, rfl⟩, hin⟩, rfl⟩, (passes_eq hrec).trans hmeets⟩

/-- **What a scan picks**, each record once. -/
theorem run_scanStream {tag : ScanTag} {indexColNames : List String} (hstands : Stands db tabName bag t) (ht : objects tabName = some t)
    {rids : List Rid} (h : (scanStream db tag tabName conds indexColNames).run objects = some rids) :
    rids.Nodup ∧ ∀ rid, rid ∈ rids ↔ ∃ rec, t.fh.records rid = some rec ∧
      picks t.tab tag tabName conds indexColNames rec = true := by
  simp only [scanStream, DbMeta.getTable, hstands.tab, Stream.attempt] at h
  cases tag with
  | seqScan => exact run_seqScanStream ht h
  | indexScan => exact run_indexScanStream hstands.ok hstands.agrees ht h

end Scans

/-! ### The rows of a plan -/

section Rows

variable {db : DbMeta} {objects : String → Option Table} {bags : Bags} {p : JoinParams}

/-- The records that are read at the rids. -/
theorem run_fetchRows {tabName : String} {t : Table} (ht : objects tabName = some t) : ∀ {s : RowStream Rid} {rows : List Bytes},
    (fetchRows tabName s).run objects = some rows → ∃ rids, s.run objects = some rids ∧ rows = rids.filterMap t.fh.records
  | .done, rows, h => ⟨[], rfl, (Option.some.inj h).symm⟩
  | .fail, rows, h => by cases h
  | .yield rid rest, rows, h => by
    change (Stream.look tabName _).run objects = some rows at h
    simp only [Stream.run, ht] at h
    cases hget : t.fh.getRecord rid with
    | error e =>
      rw [hget] at h
      cases h
    | ok rec =>
      rw [hget] at h
      obtain ⟨rows', h', rfl⟩ := Option.map_eq_some_iff.mp h
      obtain ⟨rids, hrun, rfl⟩ := run_fetchRows ht h'
      refine ⟨rid :: rids, by rw [Stream.run, hrun]; rfl, ?_⟩
      rw [List.filterMap_cons, RmFileHandle.records_of_getRecord hget]
  | .look k rest, rows, h => by
    change (Stream.look k fun v => fetchRows tabName (rest v)).run objects = some rows at h
    simp only [Stream.run] at h ⊢
    cases hk : objects k with
    | none =>
      rw [hk] at h
      cases h
    | some v =>
      simp only [hk] at h ⊢
      exact run_fetchRows ht h

theorem run_yieldAll {R : Type} {rest : RowStream R} : ∀ rows : List R,
    (Stream.yieldAll rows rest).run objects = (rest.run objects).map (rows ++ ·)
  | [] => by simp [Stream.yieldAll]
  | r :: rows => by
    rw [Stream.yieldAll, Stream.run, run_yieldAll rows, Option.map_map]
    rfl

/-- The elements that pass, if no test fails. -/
theorem filterE_meetsJoin {rightRec : Bytes} {block out : List Bytes}
    (h : filterE (fun leftRec => evalJoinConds p.leftCols p.rightCols leftRec rightRec p.fedConds) block = .ok out) :
    out = block.filter (meetsJoin p · rightRec) := by
  have heval : ∀ leftRec ∈ block, evalJoinConds p.leftCols p.rightCols (id leftRec) rightRec p.fedConds =
      .ok (meetsJoin p leftRec rightRec) := fun leftRec hmem => by
    obtain ⟨b, hb⟩ := exists_of_filterE h leftRec hmem
    rw [meetsJoin, id, hb]
  have hfilter := filterE_map id (fun leftRec => evalJoinConds p.leftCols p.rightCols leftRec rightRec p.fedConds) heval
  rw [List.map_id, List.map_id] at hfilter
  exact Except.ok.inj (h.symm.trans hfilter)

theorem productRows_append (holds : Bytes → Bytes → Bool) (A B : List Bytes) (R : Multiset Bytes) :
    productRows p holds (A ++ B : List Bytes) R = productRows p holds A R + productRows p holds B R := by
  rw [← Multiset.coe_add, productRows, productRows, productRows, Multiset.add_product, Multiset.filter_add, Multiset.map_add]

/-- A block with the rows of the right child, and what is behind them. -/
theorem run_blockStream {block : List Bytes} {rest : RowStream Bytes} : ∀ {right : RowStream Bytes} {seen : Bool} {out : List Bytes},
    (blockStream p block rest seen right).run objects = some out → ∃ rs, right.run objects = some rs ∧
      if seen = false ∧ rs = [] then out = []
      else ∃ out', rest.run objects = some out' ∧ out = blockRows p (meetsJoin p) block rs ++ out'
  | .done, true, out, h => ⟨[], rfl, out, h, rfl⟩
  | .done, false, out, h => ⟨[], rfl, (Option.some.inj h).symm⟩
  | .fail, seen, out, h => by cases h
  | .yield rightRec right, seen, out, h => by
    rw [blockStream] at h
    cases hfilter : filterE (fun leftRec => evalJoinConds p.leftCols p.rightCols leftRec rightRec p.fedConds) block with
    | error e =>
      rw [hfilter] at h
      cases h
    | ok leftRecs =>
      rw [hfilter, Stream.attempt, run_yieldAll] at h
      obtain ⟨out₁, hrun, rfl⟩ := Option.map_eq_some_iff.mp h
      obtain ⟨rs, hrs, hout⟩ := run_blockStream hrun
      refine ⟨rightRec :: rs, by rw [Stream.run, hrs]; rfl, ?_⟩
      rw [if_neg (by simp)] at hout ⊢
      obtain ⟨out', hrest, rfl⟩ := hout
      refine ⟨out', hrest, ?_⟩
      rw [show blockRows p (meetsJoin p) block (rightRec :: rs) = rowMatches p (meetsJoin p) block rightRec ++
        blockRows p (meetsJoin p) block rs from List.flatMap_cons, rowMatches, ← filterE_meetsJoin hfilter, List.append_assoc]
  | .look k right, seen, out, h => by
    rw [blockStream] at h
    simp only [Stream.run] at h ⊢
    cases hk : objects k with
    | none =>
      rw [hk] at h
      cases h
    | some v =>
      simp only [hk] at h ⊢
      exact run_blockStream h

theorem run_blockStream_nil {block : List Bytes} {rest right : RowStream Bytes} {out : List Bytes} {C : Prop}
    (hright : right.run objects = none ∨ right.run objects = some [])
    (h : (blockStream p block rest false right).run objects = some out) : out = [] ∧ (right.run objects = none → C) := by
  obtain ⟨rs, hrs, hout⟩ := run_blockStream h
  rcases hright with hnone | hnil
  · rw [hnone] at hrs
    cases hrs
  · obtain rfl := Option.some.inj (hnil.symm.trans hrs)
    exact ⟨by simpa using hout, fun hnone => by rw [hnone] at hrs; cases hrs⟩

/-- The left child from where a join is: the rows of a block and those behind it, joined with the rows of the right child. -/
theorem run_joinStream {right : RowStream Bytes} {rs : List Bytes} (hrs : right.run objects = some rs) (hne : rs ≠ []) :
    ∀ {left : RowStream Bytes} {block out : List Bytes}, (joinStream p right block left).run objects = some out →
      ∃ ls, left.run objects = some ls ∧ (out : Multiset Bytes) = productRows p (meetsJoin p) (block ++ ls : List Bytes) rs
  | .done, [], out, h => by
    cases h
    exact ⟨[], rfl, by simp [productRows]⟩
  | .done, leftRec :: block, out, h => by
    rw [joinStream, if_neg (by simp)] at h
    obtain ⟨rs', hrs', hout⟩ := run_blockStream h
    obtain rfl := Option.some.inj (hrs.symm.trans hrs')
    rw [if_neg fun hnil => hne hnil.2] at hout
    obtain ⟨out', hdone, rfl⟩ := hout
    cases hdone
    exact ⟨[], rfl, by rw [List.append_nil, List.append_nil, coe_blockRows]⟩
  | .fail, block, out, h => by cases h
  | .yield leftRec left, block, out, h => by
    rw [joinStream] at h
    split at h
    · obtain ⟨rs', hrs', hout⟩ := run_blockStream h
      obtain rfl := Option.some.inj (hrs.symm.trans hrs')
      rw [if_neg fun hnil => hne hnil.2] at hout
      obtain ⟨out', hrest, rfl⟩ := hout
      obtain ⟨ls, hls, hout'⟩ := run_joinStream hrs hne hrest
      refine ⟨leftRec :: ls, by rw [Stream.run, hls]; rfl, ?_⟩
      rw [← Multiset.coe_add, coe_blockRows, hout', List.singleton_append, productRows_append]
    · obtain ⟨ls, hls, hout⟩ := run_joinStream hrs hne h
      refine ⟨leftRec :: ls, by rw [Stream.run, hls]; rfl, ?_⟩
      rwa [List.append_assoc] at hout
  | .look k left, block, out, h => by
    rw [joinStream] at h
    simp only [Stream.run] at h ⊢
    cases hk : objects k with
    | none =>
      rw [hk] at h
      cases h
    | some v =>
      simp only [hk] at h ⊢
      exact run_joinStream hrs hne h

/-- A right child without rows ends the join. -/
theorem run_joinStream_nil {right : RowStream Bytes} (hright : right.run objects = none ∨ right.run objects = some []) :
    ∀ {left : RowStream Bytes} {block out : List Bytes}, (joinStream p right block left).run objects = some out →
      out = [] ∧ (right.run objects = none → block = [] ∧ left.run objects = some [])
  | .done, [], out, h => by
    cases h
    exact ⟨rfl, fun _ => ⟨rfl, rfl⟩⟩
  | .done, leftRec :: block, out, h => by
    rw [joinStream, if_neg (by simp)] at h
    exact run_blockStream_nil hright h
  | .fail, block, out, h => by cases h
  | .yield leftRec left, block, out, h => by
    rw [joinStream] at h
    split at h
    · exact run_blockStream_nil hright h
    · obtain ⟨hout, hnone⟩ := run_joinStream_nil hright h
      exact ⟨hout, fun hn => absurd (hnone hn).1 (by simp)⟩
  | .look k left, block, out, h => by
    rw [joinStream] at h
    simp only [Stream.run] at h ⊢
    cases hk : objects k with
    | none =>
      rw [hk] at h
      cases h
    | some v =>
      simp only [hk] at h ⊢
      exact run_joinStream_nil hright h

/-- **The rows of a plan** on tables that stand. -/
theorem run_planStream : ∀ {plan : Plan} {rows : List Bytes},
    (∀ k ∈ plan.tables, ∃ t, objects k = some t ∧ Stands db k (bags k) t) → (planStream db plan).run objects = some rows →
    (rows : Multiset Bytes) = planBag db bags plan
  | .scan tag tabName conds indexColNames, rows, hstands, h => by
    obtain ⟨t, ht, hst⟩ := hstands tabName (List.mem_singleton_self _)
    obtain ⟨rids, hrids, rfl⟩ := run_fetchRows ht h
    obtain ⟨hnd, hmem⟩ := run_scanStream hst ht hrids
    rw [hst.stores.filterMap_eq _ hnd hmem, planBag, hst.tab]
  | .join left right conds, rows, hstands, h => by
    have hleft : ∀ k ∈ left.tables, ∃ t, objects k = some t ∧ Stands db k (bags k) t := fun k hk => hstands k (by simp [hk])
    have hright : ∀ k ∈ right.tables, ∃ t, objects k = some t ∧ Stands db k (bags k) t := fun k hk => hstands k (by simp [hk])
    rw [planStream] at h
    rw [planBag]
    rcases hrun : (planStream db right).run objects with _ | _ | ⟨r, rs⟩
    · -- there has been no block, so the left child has no rows
      obtain ⟨rfl, hnone⟩ := run_joinStream_nil (.inl hrun) h
      rw [← run_planStream hleft (hnone hrun).2, productRows, Multiset.coe_nil, Multiset.zero_product]
      rfl
    · obtain ⟨rfl, -⟩ := run_joinStream_nil (.inr hrun) h
      rw [← run_planStream hright hrun, productRows, Multiset.coe_nil, Multiset.product_zero]
      rfl
    · obtain ⟨ls, hls, hrows⟩ := run_joinStream hrun (List.cons_ne_nil _ _) h
      rw [hrows, List.nil_append, ← run_planStream hleft hls, ← run_planStream hright hrun]

end Rows

/-! ### Changes of rows -/

/-- A table in order has one record changed, and its indexes follow. -/
structure RowChanged (t : Table) (rid : Rid) (o : Option Bytes) (t' : Table) : Prop where
  ok : t'.Ok
  agrees : t'.Agrees
  tab : t'.tab = t.tab
  records : t'.fh.records = update t.fh.records rid o

section Changes

variable {t t' : Table} {w w' : List WriteRecord}

theorem apply_eq_some {op : RowOp} (h : op.apply t w = some (t', w')) : op.exec ⟨t, w⟩ = (⟨t', w'⟩, none) := by
  rw [RowOp.apply] at h
  split at h
  · next s hrun =>
    cases h
    exact hrun
  · cases h

variable (hok : t.Ok) (hagrees : t.Agrees)
include hok hagrees

theorem insert_changed {values : List Value} (h : (RowOp.insert values).apply t w = some (t', w')) :
    ∃ rec rid, makeRecord t.tab values = .ok rec ∧ t.fh.records rid = none ∧ RowChanged t rid (some rec) t' := by
  obtain ⟨rec, rid, -, hrec, -, hnone, -, hnew, hbec⟩ := Session.insert_cases hok (apply_eq_some h)
  exact ⟨rec, rid, hrec, hnone, hbec.ok, hbec.agrees fun index hi => (hagrees index hi).insert hnone (hnew index hi), hbec.tab,
    hbec.records⟩

theorem update_changed {setClauses : List SetClause} {rid : Rid} (h : (RowOp.update setClauses rid).apply t w = some (t', w')) :
    RowChanged t rid ((t.fh.records rid).map (newRecord t.tab setClauses)) t' := by
  obtain ⟨old, new, hold, hset, -, hno, hbec⟩ := Session.updateRow_cases hok (apply_eq_some h)
  refine ⟨hbec.ok, hbec.agrees fun index hi => (hagrees index hi).move hold ?_, hbec.tab, ?_⟩
  · intro hne
    by_contra hkey
    exact hno index hi ⟨hne, hkey⟩
  · have hnew : newRecord t.tab setClauses old = new := by rw [newRecord, hset]
    rw [hbec.records, hold, Option.map_some, hnew]

theorem delete_changed {rid : Rid} (h : (RowOp.delete rid).apply t w = some (t', w')) : RowChanged t rid none t' := by
  obtain ⟨rec, hrec, -, hbec⟩ := Session.deleteRow_cases hok (apply_eq_some h)
  exact ⟨hbec.ok, hbec.agrees fun index hi => (hagrees index hi).delete hrec, hbec.tab, hbec.records⟩

end Changes

/-- **The rounds of an executor**, for rids that are all different: every one of them has its record changed. -/
theorem run_rows {tabName : String} {op : Rid → RowOp} {g : TabMeta → Option Bytes → Option Bytes}
    (hop : ∀ {t t' : Table} {w w' : List WriteRecord} {rid : Rid}, t.Ok → t.Agrees → (op rid).apply t w = some (t', w') →
      RowChanged t rid (g t.tab (t.fh.records rid)) t') :
    ∀ {rids : List Rid} {t : Table} {objects objects' : String → Option Table} {w w' : List WriteRecord} {result : List Bytes},
      rids.Nodup → t.Ok → t.Agrees → objects tabName = some t →
      (Prog.writeAll tabName (rids.map op) (.ret [])).run RowOp.apply objects w = some (result, objects', w') →
      result = [] ∧ ∃ t', objects' = update objects tabName (some t') ∧ t'.Ok ∧ t'.Agrees ∧ t'.tab = t.tab ∧
        ∀ rid, t'.fh.records rid = if rid ∈ rids then g t.tab (t.fh.records rid) else t.fh.records rid
  | [], t, objects, objects', w, w', result, _, hok, hagrees, ht, h => by
    cases h
    exact ⟨rfl, t, by rw [← ht, Function.update_eq_self], hok, hagrees, rfl, fun rid => rfl⟩
  | rid :: rids, t, objects, objects', w, w', result, hnd, hok, hagrees, ht, h => by
    obtain ⟨hnot, hnd⟩ := List.nodup_cons.mp hnd
    rw [List.map_cons, Prog.writeAll] at h
    simp only [Prog.run, ht] at h
    rcases hone : (op rid).apply t w with _ | ⟨t₁, w₁⟩
    · rw [hone] at h
      cases h
    · simp only [hone] at h
      have h₁ := hop hok hagrees hone
      obtain ⟨hres, t', hobjects, hok', hagrees', htab, hrecords⟩ :=
        run_rows hop hnd h₁.ok h₁.agrees (Function.update_self ..) h
      refine ⟨hres, t', by rw [hobjects, Function.update_idem], hok', hagrees', htab.trans h₁.tab, ?_⟩
      intro r
      rw [hrecords, h₁.records, h₁.tab]
      by_cases hr : r = rid
      · subst hr
        rw [if_neg hnot, if_pos List.mem_cons_self, Function.update_self]
      · rw [Function.update_of_ne hr]
        simp only [List.mem_cons, hr, false_or]

/-! ### Statements -/

section Statements

variable {db : DbMeta} {D : DoubleOps} {std : StdSort} {bags : Bags} {objects objects' : String → Option Table}
  {rd wr : Set String} {w w' : List WriteRecord} {result : List Bytes}

/-- The tables of some names stand, with the records of the bags. -/
def AllStand (db : DbMeta) (rd : Set String) (bags : Bags) (objects : String → Option Table) : Prop :=
  ∀ k ∈ rd, ∃ t, objects k = some t ∧ Stands db k (bags k) t

/-- The records of a table that agrees with its indexes have different keys. -/
theorem Stands.uniqueKeys {name : String} {bag : Multiset Bytes} {t : Table} (h : Stands db name bag t) : UniqueKeys t.tab bag :=
  fun index hi => h.stores.nodup_map fun _ _ _ _ hr hr' hkey => (h.agrees index hi).keysDiffer hr hr' hkey

/-- Of the rids that a scan has collected a stored record is one if it is picked. -/
theorem mem_iff_picks {f : RmFileHandle} {rids : List Rid} {p : Bytes → Bool}
    (hmem : ∀ rid, rid ∈ rids ↔ ∃ rec, f.records rid = some rec ∧ p rec = true) {rid : Rid} {rec : Bytes}
    (hrec : f.records rid = some rec) : rid ∈ rids ↔ p rec = true := by
  rw [hmem]
  constructor
  · rintro ⟨rec', hrec', hp⟩
    rwa [Option.some.inj (hrec.symm.trans hrec')]
  · exact fun hp => ⟨rec, hrec, hp⟩

/-- A table of a statement has changed. -/
theorem AllStand.update (h : AllStand db rd bags objects) {k : String} {t : Table} {bag : Multiset Bytes}
    (ht : Stands db k bag t) : AllStand db rd (update bags k bag) (update objects k (some t)) := by
  intro k' hk'
  by_cases hk : k' = k
  · subst hk
    exact ⟨t, by rw [Function.update_self], by rwa [Function.update_self]⟩
  · obtain ⟨t', ht', hst⟩ := h k' hk'
    exact ⟨t', by rw [Function.update_of_ne hk, ht'], by rwa [Function.update_of_ne hk]⟩

theorem AllStand.congr {bags' : Bags} (h : AllStand db rd bags objects) (hbags : ∀ k ∈ rd, bags' k = bags k)
    (hobjects : ∀ k ∈ rd, objects' k = objects k) : AllStand db rd bags' objects' := fun k hk => by
  rw [hbags k hk, hobjects k hk]
  exact h k hk

/-- **A statement that runs alone** on tables that stand does what it means. It has asked for its tables, and it
changes only a table for which it has asked exclusively. -/
theorem DMLPlan.means {stmt : DMLPlan} (hlimit : stmt.NoLimit) (hstands : AllStand db rd bags objects)
    (h : Solo RowOp.apply rd wr ⟨stmt.prog db D std, objects, w⟩ ⟨.ret result, objects', w'⟩) :
    ∃ bags', Means db D std bags stmt result bags' ∧ AllStand db rd bags' objects' ∧ (∀ k ∈ stmt.tables, k ∈ rd) ∧
      ∀ k, k ∉ wr → bags' k = bags k := by
  cases stmt with
  | select subplan query =>
    obtain ⟨htables, h⟩ := h.acquiredAll
    obtain ⟨rows, hrows, h⟩ := h.collected
    have hend := h.run_eq
    simp only [List.nil_append] at hend
    cases hsel : selectRows D std (planCols db subplan) query rows with
    | error e =>
      rw [hsel] at hend
      cases hend
    | ok result' =>
      rw [hsel] at hend
      cases hend
      have hbag := run_planStream (fun k hk => hstands k (htables k hk)) hrows
      exact ⟨bags, .select hlimit hbag hsel, hstands, htables, fun _ _ => rfl⟩
  | insert tabName values =>
    obtain ⟨hrd, hwr, h⟩ := h.acquired
    have hend := h.run_eq
    obtain ⟨t, ht, hst⟩ := hstands tabName hrd
    simp only [Prog.run, ht] at hend
    rcases hone : (RowOp.insert values).apply t w with _ | ⟨t', w₁⟩
    · rw [hone] at hend
      cases hend
    · rw [hone] at hend
      cases hend
      obtain ⟨rec, rid, hrec, hnone, h'⟩ := insert_changed hst.ok hst.agrees hone
      have hst' : Stands db tabName (rec ::ₘ bags tabName) t' :=
        ⟨h'.ok, h'.agrees, h'.tab ▸ hst.named, h'.tab ▸ hst.tab, h'.records ▸ hst.stores.insert hnone rec⟩
      refine ⟨_, .insert hst.tab hrec (h'.tab ▸ hst'.uniqueKeys), hstands.update hst', ?_, ?_⟩
      · intro k hk
        rw [List.mem_singleton.mp hk]
        exact hrd
      · intro k hk
        exact Function.update_of_ne (fun heq : k = tabName => hk (heq ▸ hwr rfl)) ..
  | update tag tabName conds indexColNames setClauses =>
    obtain ⟨hrd, -, h⟩ := h.acquired
    obtain ⟨rids, hrids, h⟩ := h.collected
    obtain ⟨-, hwr, h⟩ := h.acquired
    obtain ⟨t, ht, hst⟩ := hstands tabName hrd
    obtain ⟨hnd, hmem⟩ := run_scanStream hst ht hrids
    obtain ⟨rfl, t', rfl, hok, hagrees, htab, hrecords⟩ := run_rows (g := fun tab => Option.map (newRecord tab setClauses))
      (fun hok ha hone => update_changed hok ha hone) hnd hst.ok hst.agrees ht h.run_eq
    have hst' : Stands db tabName ((bags tabName).map fun rec =>
        if picks t.tab tag tabName conds indexColNames rec then newRecord t.tab setClauses rec else rec) t' := by
      refine ⟨hok, hagrees, htab ▸ hst.named, htab ▸ hst.tab, hst.stores.map _ ?_⟩
      intro rid
      rw [hrecords]
      cases hrec : t.fh.records rid with
      | none => exact ite_self _
      | some rec =>
        by_cases hin : rid ∈ rids
        · rw [if_pos hin, Option.map_some, Option.map_some, if_pos ((mem_iff_picks hmem hrec).mp hin)]
        · rw [if_neg hin, Option.map_some, if_neg (mt (mem_iff_picks hmem hrec).mpr hin)]
    refine ⟨_, .update hst.tab rfl (htab ▸ hst'.uniqueKeys), hstands.update hst', ?_, ?_⟩
    · intro k hk
      rw [List.mem_singleton.mp hk]
      exact hrd
    · intro k hk
      exact Function.update_of_ne (fun heq : k = tabName => hk (heq ▸ hwr rfl)) ..
  | delete tag tabName conds indexColNames =>
    obtain ⟨hrd, -, h⟩ := h.acquired
    obtain ⟨rids, hrids, h⟩ := h.collected
    obtain ⟨-, hwr, h⟩ := h.acquired
    obtain ⟨t, ht, hst⟩ := hstands tabName hrd
    obtain ⟨hnd, hmem⟩ := run_scanStream hst ht hrids
    obtain ⟨rfl, t', rfl, hok, hagrees, htab, hrecords⟩ := run_rows (g := fun _ _ => none)
      (fun hok ha hone => delete_changed hok ha hone) hnd hst.ok hst.agrees ht h.run_eq
    have hst' : Stands db tabName ((bags tabName).filter fun rec => ¬ picks t.tab tag tabName conds indexColNames rec) t' := by
      refine ⟨hok, hagrees, htab ▸ hst.named, htab ▸ hst.tab, hst.stores.filter _ ?_⟩
      intro rid rec
      rw [hrecords]
      by_cases hin : rid ∈ rids
      · rw [if_pos hin]
        constructor
        · intro hnone
          cases hnone
        · rintro ⟨hrec, hnot⟩
          exact absurd ((mem_iff_picks hmem hrec).mp hin) hnot
      · rw [if_neg hin]
        exact (and_iff_left_of_imp fun hrec => mt (mem_iff_picks hmem hrec).mpr hin).symm
    refine ⟨_, .delete hst.tab, hstands.update hst', ?_, ?_⟩
    · intro k hk
      rw [List.mem_singleton.mp hk]
      exact hrd
    · intro k hk
      exact Function.update_of_ne (fun heq : k = tabName => hk (heq ▸ hwr rfl)) ..

end Statements

/-! ### What the meaning depends on -/

section Frames

variable {db : DbMeta} {D : DoubleOps} {std : StdSort} {bags bags' bags₁ bags₂ other : Bags} {stmt : DMLPlan}
  {result result' : List Bytes}

theorem planBag_congr : ∀ {p : Plan}, (∀ k ∈ p.tables, bags k = other k) → planBag db bags p = planBag db other p
  | .scan tag tabName conds indexColNames, h => by
    rw [planBag, planBag, h tabName (List.mem_singleton_self _)]
  | .join left right conds, h => by
    rw [planBag, planBag, planBag_congr (p := left) fun k hk => h k (by simp [hk]),
      planBag_congr (p := right) fun k hk => h k (by simp [hk])]

open Classical in
theorem piecewise_update {T : Set String} {k : String} (hk : k ∈ T) (hT : ∀ k ∈ T, other k = bags k) (bag : Multiset Bytes) :
    T.piecewise (update bags k bag) other = update other k bag := by
  funext k'
  by_cases hkk : k' = k
  · rw [hkk, Set.piecewise_eq_of_mem _ _ _ hk, Function.update_self, Function.update_self]
  · rw [Function.update_of_ne hkk]
    by_cases hT' : k' ∈ T
    · rw [Set.piecewise_eq_of_mem _ _ _ hT', Function.update_of_ne hkk, hT k' hT']
    · rw [Set.piecewise_eq_of_notMem _ _ _ hT']

open Classical in
/-- **A statement means the same** where its own tables are the same, and leaves the others alone. -/
theorem Means.frame (h : Means db D std bags stmt result bags') {T : Set String} (hstmt : ∀ k ∈ stmt.tables, k ∈ T)
    (hT : ∀ k ∈ T, other k = bags k) : Means db D std other stmt result (T.piecewise bags' other) := by
  cases h with
  | @select subplan query result rows hlimit hrows hsel =>
    have hsame : T.piecewise bags other = other := by
      funext k
      by_cases hk : k ∈ T
      · rw [Set.piecewise_eq_of_mem _ _ _ hk, hT k hk]
      · rw [Set.piecewise_eq_of_notMem _ _ _ hk]
    rw [hsame]
    exact .select hlimit (hrows.trans (planBag_congr fun k hk => (hT k (hstmt k hk)).symm)) hsel
  | @insert tabName values tab rec htab hrec hkeys =>
    have hk := hstmt tabName (List.mem_singleton_self _)
    rw [piecewise_update hk hT, ← hT tabName hk]
    exact .insert htab hrec (by rwa [hT tabName hk])
  | @update tag tabName conds indexColNames setClauses tab bag htab hbag hkeys =>
    have hk := hstmt tabName (List.mem_singleton_self _)
    rw [piecewise_update hk hT]
    exact .update htab (by rw [hT tabName hk]; exact hbag) hkeys
  | @delete tag tabName conds indexColNames tab htab =>
    have hk := hstmt tabName (List.mem_singleton_self _)
    rw [piecewise_update hk hT, ← hT tabName hk]
    exact .delete htab

variable (db D std)

/-- **Statements one after the other**, with what they return. -/
def MeansAll : Bags → List (DMLPlan × List Bytes) → Bags → Prop
  | bags, [], bags' => bags = bags'
  | bags, (stmt, result) :: rest, bags' => ∃ bags₁, Means db D std bags stmt result bags₁ ∧ MeansAll bags₁ rest bags'

/-- The rows that a statement returns on the bags do not depend on the order of the rows below it. -/
def DMLPlan.OrderFree (bags : Bags) : DMLPlan → Prop
  | select subplan query => ∀ {rows rows' result result' : List Bytes}, (rows : Multiset Bytes) = planBag db bags subplan →
      rows.Perm rows' → selectRows D std (planCols db subplan) query rows = .ok result →
      selectRows D std (planCols db subplan) query rows' = .ok result' → result.Perm result'
  | _ => True

variable {db D std}

theorem MeansAll.append {work work' : List (DMLPlan × List Bytes)} : ∀ {bags bags₁ bags' : Bags},
    MeansAll db D std bags work bags₁ → MeansAll db D std bags₁ work' bags' → MeansAll db D std bags (work ++ work') bags' := by
  induction work with
  | nil => exact fun h h' => (show _ = _ from h) ▸ h'
  | cons e work ih =>
    rintro bags bags₁ bags' ⟨bags₂, hone, h⟩ h'
    exact ⟨bags₂, hone, ih h h'⟩

theorem MeansAll.snoc {work : List (DMLPlan × List Bytes)} (h : MeansAll db D std bags work bags₁)
    (hone : Means db D std bags₁ stmt result bags') : MeansAll db D std bags (work ++ [(stmt, result)]) bags' :=
  h.append ⟨bags', hone, rfl⟩

open Classical in
theorem MeansAll.frame {T : Set String} : ∀ {work : List (DMLPlan × List Bytes)} {bags other bags' : Bags},
    MeansAll db D std bags work bags' → (∀ e ∈ work, ∀ k ∈ e.1.tables, k ∈ T) → (∀ k ∈ T, other k = bags k) →
    MeansAll db D std other work (T.piecewise bags' other) := by
  intro work
  induction work with
  | nil =>
    rintro bags other bags' rfl - hT
    funext k
    by_cases hk : k ∈ T
    · rw [Set.piecewise_eq_of_mem _ _ _ hk, hT k hk]
    · rw [Set.piecewise_eq_of_notMem _ _ _ hk]
  | cons e work ih =>
    rintro bags other bags' ⟨bags₁, hone, h⟩ hwork hT
    refine ⟨_, hone.frame (hwork e List.mem_cons_self) hT, ?_⟩
    have hrest := @ih bags₁ (T.piecewise bags₁ other) bags' h (fun e he => hwork e (List.mem_cons_of_mem _ he))
      fun k hk => Set.piecewise_eq_of_mem _ _ _ hk
    have hsame : T.piecewise bags' (T.piecewise bags₁ other) = T.piecewise bags' other := by
      funext k
      by_cases hk : k ∈ T
      · rw [Set.piecewise_eq_of_mem _ _ _ hk, Set.piecewise_eq_of_mem _ _ _ hk]
      · rw [Set.piecewise_eq_of_notMem _ _ _ hk, Set.piecewise_eq_of_notMem _ _ _ hk, Set.piecewise_eq_of_notMem _ _ _ hk]
    rwa [hsame] at hrest

/-- **What a statement means is determined**: the bags after it, and the rows that it returns, up to their order, if
they do not depend on the order of the rows below. -/
theorem Means.unique (h : Means db D std bags stmt result bags₁) (h' : Means db D std bags stmt result' bags₂) :
    bags₁ = bags₂ ∧ (stmt.OrderFree db D std bags → result.Perm result') := by
  cases h with
  | select _ hrows hsel =>
    cases h' with
    | select _ hrows' hsel' =>
      exact ⟨rfl, fun hfree => hfree hrows (Multiset.coe_eq_coe.mp (hrows.trans hrows'.symm)) hsel hsel'⟩
  | insert htab hrec =>
    cases h' with
    | insert htab' hrec' =>
      obtain rfl := Option.some.inj (htab.symm.trans htab')
      obtain rfl := Except.ok.inj (hrec.symm.trans hrec')
      exact ⟨rfl, fun _ => .refl _⟩
  | update htab hbag =>
    cases h' with
    | update htab' hbag' =>
      obtain rfl := Option.some.inj (htab.symm.trans htab')
      exact ⟨by rw [hbag, hbag'], fun _ => .refl _⟩
  | delete htab =>
    cases h' with
    | delete htab' =>
      obtain rfl := Option.some.inj (htab.symm.trans htab')
      exact ⟨rfl, fun _ => .refl _⟩

/-- **Where the records are stored does not matter.** A statement without a `LIMIT` that is executed alone on tables with the
same records, in other files at other places and with other index trees, leaves the same records and returns the same rows,
these if their order below does not matter. -/
theorem DMLPlan.same_records {objects₁ objects₂ objects₁' objects₂' : String → Option Table} {rd₁ rd₂ wr₁ wr₂ : Set String}
    {w₁ w₂ w₁' w₂' : List WriteRecord} (hlimit : stmt.NoLimit)
    (h₁ : AllStand db rd₁ bags objects₁) (h₂ : AllStand db rd₂ bags objects₂)
    (hrun₁ : Solo RowOp.apply rd₁ wr₁ ⟨stmt.prog db D std, objects₁, w₁⟩ ⟨.ret result, objects₁', w₁'⟩)
    (hrun₂ : Solo RowOp.apply rd₂ wr₂ ⟨stmt.prog db D std, objects₂, w₂⟩ ⟨.ret result', objects₂', w₂'⟩) :
    (∃ bags', AllStand db rd₁ bags' objects₁' ∧ AllStand db rd₂ bags' objects₂') ∧
      (stmt.OrderFree db D std bags → result.Perm result') := by
  obtain ⟨bags₁, hmeans₁, hstand₁, -⟩ := DMLPlan.means hlimit h₁ hrun₁
  obtain ⟨bags₂, hmeans₂, hstand₂, -⟩ := DMLPlan.means hlimit h₂ hrun₂
  obtain ⟨rfl, hperm⟩ := hmeans₁.unique hmeans₂
  exact ⟨⟨bags₁, hstand₁, hstand₂⟩, hperm⟩

/-- A row is inserted into the empty table `k`. -/
theorem DMLPlan.same_records_insert : ∃ objects' : String → Option Table, ∃ w' : List WriteRecord,
    Solo RowOp.apply {"k"} {"k"} ⟨DMLPlan.prog ⟨fun _ => some tableK.tab⟩ unitOps mergeSort (.insert "k" [valueK 7]),
        fun _ => some tableK, []⟩ ⟨.ret [], objects', w'⟩ ∧
    ∃ bags', AllStand ⟨fun _ => some tableK.tab⟩ {"k"} bags' objects' := by
  have hstand : AllStand ⟨fun _ => some tableK.tab⟩ {"k"} (fun _ => (tableK.fh.rids.filterMap tableK.fh.records : List Bytes))
      (fun _ => some tableK) := by
    rintro _ rfl
    exact ⟨tableK, rfl, tableK_spec.1, tableK_spec.2, rfl, rfl, _, tableK.fh.nodup_rids, fun _ => RmFileHandle.mem_rids, rfl⟩
  have hinsert : ∃ v' w', RowOp.apply (.insert [valueK 7]) tableK [] = some (v', w') := ⟨_, _, rfl⟩
  obtain ⟨v', w', hinsert⟩ := hinsert
  have hrun : Solo RowOp.apply {"k"} {"k"}
      ⟨DMLPlan.prog ⟨fun _ => some tableK.tab⟩ unitOps mergeSort (.insert "k" [valueK 7]), fun _ => some tableK, []⟩
      ⟨.ret [], Function.update (fun _ => some tableK) "k" (some v'), w'⟩ :=
    .tail (.single (.acquire rfl fun _ => rfl)) (.write rfl rfl hinsert)
  have hlimit : DMLPlan.NoLimit (.insert "k" [valueK 7]) := trivial
  obtain ⟨⟨bags', h, -⟩, -⟩ := DMLPlan.same_records hlimit hstand hstand hrun hrun
  exact ⟨_, _, hrun, bags', h⟩

/-- **Two executions of the same statements** one after the other leave the same bags. A statement returns the same rows in both
if these, on the bags that the statements before it leave, do not depend on the order of the rows below. -/
theorem MeansAll.unique : ∀ {work work' : List (DMLPlan × List Bytes)} {bags bags₁ bags₂ : Bags},
    MeansAll db D std bags work bags₁ → MeansAll db D std bags work' bags₂ → work'.map (·.1) = work.map (·.1) →
    bags₂ = bags₁ ∧ ∀ (i : ℕ) {B : Bags} {stmt : DMLPlan} {result result' : List Bytes}, work[i]? = some (stmt, result) →
      work'[i]? = some (stmt, result') → MeansAll db D std bags (work.take i) B → stmt.OrderFree db D std B → result.Perm result'
  | [], [], _, _, _, h, h', _ => ⟨(show _ = _ from h').symm.trans h, fun i _ _ _ _ hi => by cases hi⟩
  | (stmt, result) :: work, (stmt', result') :: work', bags, bags₁, bags₂, ⟨b, hone, h⟩, ⟨b', hone', h'⟩, heq => by
    obtain ⟨hstmt, hrest⟩ := List.cons.inj heq
    obtain rfl : stmt' = stmt := hstmt
    obtain ⟨rfl, hperm⟩ := hone.unique hone'
    obtain ⟨hbags, hall⟩ := MeansAll.unique h h' hrest
    refine ⟨hbags, ?_⟩
    intro i B stmt₁ result₁ result₁' hi hi' hB hfree
    cases i with
    | zero =>
      cases hi
      cases hi'
      obtain rfl : bags = B := hB
      exact hperm hfree
    | succ i =>
      obtain ⟨b₁, hone₁, hB⟩ := hB
      obtain ⟨rfl, -⟩ := hone.unique hone₁
      exact hall i hi hi' hB hfree

end Frames

end Rmdb.Execution
