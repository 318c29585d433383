import Rmdb.Analyze.Clause
import Rmdb.Execution.Atomic
import Rmdb.Execution.Scan
import Rmdb.Optimizer.IndexChoice

/-!
# What an `UPDATE` and a `DELETE` change

A statement is analysed, a scan of its table collects the rids of its rows, and only then
an executor goes through them. So the scan never sees what the executor does, even where the
executor changes the key that the scan runs along.

The executor takes each rid as it comes. A rid that comes twice is updated twice with the
same bytes, and cannot be deleted twice. What is left to see is what one round does to the
record (`SetBytes`), and that a loop over rids changes no other record.

The operations on the indexes may do anything to the indexes here: they do not touch the
file. Neither do the table lock and the log records, which are left out: where one of them
throws, the statement does not succeed.
-/

namespace Rmdb.Execution

open Lib Record Analyze

/-! ### From a statement to its rows -/

/-- The open tables by name, with `write_set_` of the transaction. -/
structure Database where
  /-- `db_`, `fhs_` and `ihs_`. -/
  tables : String → Option Table
  /-- The write set. -/
  writes : List WriteRecord

/-- The entries in `db_`. -/
def Database.meta (d : Database) : DbMeta := ⟨fun tabName => (d.tables tabName).map (·.tab)⟩

/-- The table of a statement. -/
def Database.getTable (d : Database) (tabName : String) : Except RMDBError Table :=
  match d.tables tabName with
  | some t => .ok t
  | none => .error (.tableNotFound tabName)

/-- The value of a `SET` clause, with its bytes. -/
def setValue (col : ColMeta) (val : SvValue) : Except RMDBError Value := do
  let rhs ← (convertSvValue val).coerceValueType col.type col.len
  rhs.initRaw col.len

/-- The round of the loop of `do_analyze` over the `SET` clauses. -/
def analyzeSet (db : DbMeta) (allCols : List ColMeta) (tabName : String) (svSet : String × SvValue) :
    Except RMDBError SetClause := do
  let lhs ← checkColumn allCols ⟨tabName, svSet.1⟩
  let tab ← db.getTable tabName
  let col ← tab.getCol lhs.colName
  let rhs ← setValue col svSet.2
  .ok ⟨lhs, rhs⟩

/-- The loop of `do_analyze` over the `SET` clauses. -/
def analyzeSets (db : DbMeta) (tabName : String) (svSets : List (String × SvValue)) :
    Except RMDBError (List SetClause) := do
  let allCols ← getAllCols db [tabName]
  svSets.mapM (analyzeSet db allCols tabName)

/-- The scan that `do_planner` chooses, and the rids that `Portal::start` collects from it. -/
def Table.scan (t : Table) (conds : List Condition) : Except RMDBError (List Rid) :=
  match Optimizer.getIndexCols t.tab conds with
  | none => seqScan t.tab t.fh conds
  | some indexColNames => indexScan t.tab t.fh t.ihs conds indexColNames

/-- `ast::UpdateStmt` and `ast::DeleteStmt`. -/
inductive RowStmt where
  /-- `UPDATE tabName SET svSets WHERE svConds`. -/
  | update (tabName : String) (svSets : List (String × SvValue)) (svConds : List BinaryExpr)
  /-- `DELETE FROM tabName WHERE svConds`. -/
  | delete (tabName : String) (svConds : List BinaryExpr)

namespace RowStmt

/-- `tab_name`. -/
def tabName : RowStmt → String
  | update tabName _ _ => tabName
  | delete tabName _ => tabName

/-- `conds`. -/
def svConds : RowStmt → List BinaryExpr
  | update _ _ svConds => svConds
  | delete _ svConds => svConds

/-- `do_analyze`, `do_planner` and `Portal::start`: the table, and what the executor is to do. -/
def start (d : Database) : RowStmt → Except RMDBError (Table × Stmt)
  | update tabName svSets svConds => do
    let setClauses ← analyzeSets d.meta tabName svSets
    let conds ← checkClause d.meta [tabName] (getClause svConds)
    let t ← d.getTable tabName
    let rids ← t.scan conds
    .ok (t, .update setClauses rids)
  | delete tabName svConds => do
    let conds ← checkClause d.meta [tabName] (getClause svConds)
    let t ← d.getTable tabName
    let rids ← t.scan conds
    .ok (t, .delete rids)

/-- The whole statement. -/
def exec (stmt : RowStmt) (d : Database) : Database × Option RMDBError :=
  match stmt.start d with
  | .error e => (d, some e)
  | .ok (t, rows) =>
    let (s, e) := rows.exec ⟨t, d.writes⟩
    (⟨Function.update d.tables stmt.tabName (some s.table), s.writes⟩, e)

end RowStmt

/-! ### What they are to change -/

/-- The bytes of two columns do not overlap. -/
def Apart (col col' : ColMeta) : Prop := col.offset + col.len ≤ col'.offset ∨ col'.offset + col'.len ≤ col.offset

/-- **A record under `SET`**: the columns of the clauses are replaced by the encoded values, of several clauses for the
same bytes by the last, and no other byte is. -/
structure SetBytes (tab : TabMeta) (svSets : List (String × SvValue)) (old new : Bytes) : Prop where
  /-- It keeps its length. -/
  length : new.length = old.length
  /-- A clause that no later one writes over. -/
  column : ∀ A colName val B, svSets = A ++ (colName, val) :: B → ∃ col, tab.getCol colName = .ok col ∧
    ((∀ later ∈ B, ∀ col', tab.getCol later.1 = .ok col' → Apart col col') →
      ∃ rhs, setValue col val = .ok rhs ∧ rhs.raw = some (col.read new))
  /-- A byte of no column that is set. -/
  rest : ∀ i, (∀ svSet ∈ svSets, ∀ col, tab.getCol svSet.1 = .ok col → i < col.offset ∨ col.offset + col.len ≤ i) →
    new[i]? = old[i]?

/-- The conditions, checked, on a table before the statement, and the table after it. Every other table is as it was. -/
structure OnTable (d d' : Database) (tabName : String) (svConds : List BinaryExpr) (conds : List Condition)
    (t t' : Table) : Prop where
  checked : checkClause d.meta [tabName] (getClause svConds) = .ok conds
  before : d.tables tabName = some t
  after : d'.tables = Function.update d.tables tabName (some t')
  tab : t'.tab = t.tab

/-- **What a statement is to do**: rows that satisfied all conditions are changed or removed, and no others. -/
def RowStmt.Exact (d d' : Database) : RowStmt → Prop
  | update tabName svSets svConds => ∃ conds t t', OnTable d d' tabName svConds conds t t' ∧ ∀ rid,
    if satisfies t.fh t.tab.cols conds rid then
      ∃ old new, t.fh.records rid = some old ∧ t'.fh.records rid = some new ∧ SetBytes t.tab svSets old new
    else t'.fh.records rid = t.fh.records rid
  | delete tabName svConds => ∃ conds t t', OnTable d d' tabName svConds conds t t' ∧ ∀ rid,
    t'.fh.records rid = if satisfies t.fh t.tab.cols conds rid then none else t.fh.records rid

/-! ### The record of a row -/

/-- What the analysis of a `SET` clause has made of it. -/
structure Analyzed (tab : TabMeta) (svSet : String × SvValue) (clause : SetClause) (col : ColMeta) (raw : Bytes) : Prop where
  name : clause.lhs.colName = svSet.1
  found : tab.getCol svSet.1 = .ok col
  value : setValue col svSet.2 = .ok clause.rhs
  bytes : clause.rhs.raw = some raw
  len : raw.length = col.len

theorem checkColumn_colName {allCols : List ColMeta} {target res : TabCol} (h : checkColumn allCols target = .ok res) :
    res.colName = target.colName := by
  rw [checkColumn] at h
  split_ifs at h
  · obtain ⟨tabName, -, h⟩ := bind_eq_ok h
    split_ifs at h
    cases h
    rfl
  · cases h
    rfl

theorem analyzeSet_analyzed {db : DbMeta} {allCols : List ColMeta} {tabName : String} {tab : TabMeta}
    (htab : db.tabs tabName = some tab) {svSet : String × SvValue} {clause : SetClause}
    (h : analyzeSet db allCols tabName svSet = .ok clause) : ∃ col raw, Analyzed tab svSet clause col raw := by
  obtain ⟨lhs, hlhs, h⟩ := bind_eq_ok h
  obtain ⟨tab', htab', h⟩ := bind_eq_ok h
  obtain ⟨col, hcol, h⟩ := bind_eq_ok h
  obtain ⟨rhs, hrhs, h⟩ := bind_eq_ok h
  cases h
  obtain rfl := Option.some.inj (htab.symm.trans (getTable_eq htab'))
  have hname := checkColumn_colName hlhs
  rw [hname] at hcol
  obtain ⟨val, -, hraw⟩ := bind_eq_ok hrhs
  obtain ⟨raw, hsome, hlen⟩ := initRaw_spec hraw
  exact ⟨col, raw, hname, hcol, hrhs, hsome, hlen⟩

theorem mapM_analyzed {db : DbMeta} {allCols : List ColMeta} {tabName : String} {tab : TabMeta}
    (htab : db.tabs tabName = some tab) : ∀ {svSets : List (String × SvValue)} {clauses : List SetClause},
    svSets.mapM (analyzeSet db allCols tabName) = .ok clauses →
    List.Forall₂ (fun svSet clause => ∃ col raw, Analyzed tab svSet clause col raw) svSets clauses
  | [], clauses, h => by
    cases h
    exact .nil
  | svSet :: svSets, clauses, h => by
    rw [List.mapM_cons] at h
    obtain ⟨clause, hclause, h⟩ := bind_eq_ok h
    obtain ⟨rest, hrest, h⟩ := bind_eq_ok h
    cases h
    exact .cons (analyzeSet_analyzed htab hclause) (mapM_analyzed htab hrest)

/-- A column that has just been written is read back. -/
theorem read_put {col : ColMeta} {rec new raw : Bytes} (hlen : raw.length = col.len) (hin : col.offset + col.len ≤ rec.length)
    (hsame : ∀ i, col.offset ≤ i → i < col.offset + col.len → new[i]? = (put rec col.offset raw)[i]?) :
    col.read new = raw := by
  refine List.ext_getElem? ?_
  intro i
  rw [ColMeta.read, List.getElem?_take]
  split_ifs with hi
  · rw [List.getElem?_drop, hsame _ (by omega) (by omega), getElem?_put (by omega), if_pos (by omega), Nat.add_sub_cancel_left]
  · rw [List.getElem?_eq_none (by omega)]

/-- **The new record of an `UPDATE`**, clause by clause. -/
theorem setRecord_setBytes {tab : TabMeta} {svSets : List (String × SvValue)} {clauses : List SetClause}
    (h : List.Forall₂ (fun svSet clause => ∃ col raw, Analyzed tab svSet clause col raw) svSets clauses) :
    ∀ {old new : Bytes}, Fits tab old → setRecord tab clauses old = .ok new → SetBytes tab svSets old new := by
  induction h with
  | nil =>
    intro old new _ hset
    cases hset
    exact ⟨rfl, fun A _ _ B h => by simp at h, fun _ _ => rfl⟩
  | @cons svSet clause svSets clauses hclause _ ihrest =>
    intro old new hfits hset
    obtain ⟨col, raw, h⟩ := hclause
    have hin := hfits col (getCol_mem h.found)
    rw [setRecord, h.name, h.found] at hset
    simp only [bind, Except.bind, h.bytes] at hset
    rw [List.take_of_length_le h.len.le] at hset
    have hput : (put old col.offset raw).length = old.length := length_put (by rw [h.len]; exact hin)
    have ih := ihrest (fun c hc => by rw [hput]; exact hfits c hc) hset
    refine ⟨ih.length.trans hput, ?_, ?_⟩
    · intro A colName val B hsplit
      cases A with
      | nil =>
        obtain ⟨rfl, rfl⟩ := List.cons.inj hsplit
        refine ⟨col, h.found, fun hapart => ⟨clause.rhs, h.value, ?_⟩⟩
        -- the later clauses write beside the column
        rw [read_put h.len hin fun i hlow hhigh => ih.rest i fun later hlater col' hcol' => ?_]
        · exact h.bytes
        · rcases hapart later hlater col' hcol' with hcol | hcol <;> omega
      | cons a A =>
        exact ih.column A colName val B (List.cons.inj hsplit).2
    · intro i hi
      rw [ih.rest i fun svSet hmem => hi svSet (List.mem_cons_of_mem _ hmem), getElem?_put (by rw [h.len]; exact hin), if_neg]
      have := hi svSet List.mem_cons_self col h.found
      rw [h.len]
      omega

/-! ### Rounds and loops on the file -/

namespace Table

/-- The operation leaves the file and the catalog entry alone. -/
def KeepsFile (body : IndexMeta → Table → Table × Option RMDBError) : Prop :=
  ∀ index t, (body index t).1.fh = t.fh ∧ (body index t).1.tab = t.tab

theorem keepsFile_deleteEntry (rec : Bytes) : KeepsFile (deleteEntry rec) := by
  intro index t
  rw [deleteEntry]
  split <;> exact ⟨rfl, rfl⟩

theorem keepsFile_insertEntry (rid : Rid) (rec : Bytes) : KeepsFile (insertEntry rid rec) := by
  intro index t
  rw [insertEntry]
  split <;> exact ⟨rfl, rfl⟩

theorem keepsFile_moveEntry (rid : Rid) (old new : Bytes) : KeepsFile (moveEntry rid old new) := by
  intro index t
  rw [moveEntry]
  split_ifs
  · have hdel := keepsFile_deleteEntry old index t
    split
    · next t' e heq => rwa [heq] at hdel
    · next t' heq =>
      rw [heq] at hdel
      have hins := keepsFile_insertEntry rid new index t'
      exact ⟨hins.1.trans hdel.1, hins.2.trans hdel.2⟩
  · exact ⟨rfl, rfl⟩

theorem keepsFile_checkEntry (old new : Bytes) : KeepsFile (checkEntry old new) := by
  intro index t
  rw [checkEntry]
  split_ifs
  · split <;> exact ⟨rfl, rfl⟩
  · exact ⟨rfl, rfl⟩

/-- A loop over indexes leaves the file alone. -/
theorem KeepsFile.forEach {body : IndexMeta → Table → Table × Option RMDBError} (hbody : KeepsFile body) :
    ∀ {indexes : List IndexMeta} {t t' : Table} {o : Option RMDBError}, Lib.forEach body indexes t = (t', o) →
      t'.fh = t.fh ∧ t'.tab = t.tab
  | [], t, t', o, h => by
    cases h
    exact ⟨rfl, rfl⟩
  | index :: indexes, t, t', o, h => by
    have hone := hbody index t
    rcases hrun : body index t with ⟨t₁, _ | e⟩
    · rw [hrun] at hone
      rw [forEach_cons_ok hrun] at h
      obtain ⟨hfh, htab⟩ := hbody.forEach h
      exact ⟨hfh.trans hone.1, htab.trans hone.2⟩
    · rw [hrun] at hone
      rw [forEach_cons_error hrun] at h
      obtain ⟨rfl, -⟩ := Prod.mk.inj h
      exact hone

/-- A table whose file is in order, with one record changed. -/
structure FileBecomes (t : Table) (rid : Rid) (o : Option Bytes) (t' : Table) : Prop where
  pages : t'.fh.PagesOk
  tab : t'.tab = t.tab
  records : t'.fh.records = Function.update t.fh.records rid o

theorem replaceRow_file {t t' : Table} {rid : Rid} {old new : Bytes} (hpages : t.fh.PagesOk)
    (hrec : t.fh.records rid = some old) (hrun : t.replaceRow rid old new = (t', none)) :
    FileBecomes t rid (some new) t' := by
  rw [replaceRow] at hrun
  split at hrun
  · cases hrun
  · next t₁ hloop =>
    obtain ⟨hfh, htab⟩ := (keepsFile_moveEntry rid old new).forEach hloop
    obtain ⟨f', hupd, hfile⟩ := RmFileHandle.updateRecord_spec hpages hrec new
    rw [hfh, hupd] at hrun
    obtain ⟨rfl, -⟩ := Prod.mk.inj hrun
    exact ⟨hfile.pages, htab, hfile.records⟩

theorem removeRow_file {t t' : Table} {rid : Rid} {rec : Bytes} (hpages : t.fh.PagesOk)
    (hrec : t.fh.records rid = some rec) (hrun : t.removeRow rid rec = (t', none)) : FileBecomes t rid none t' := by
  rw [removeRow] at hrun
  split at hrun
  · cases hrun
  · next t₁ hloop =>
    obtain ⟨hfh, htab⟩ := (keepsFile_deleteEntry rec).forEach hloop
    obtain ⟨f', hdel, hfile⟩ := RmFileHandle.deleteRecord_spec hpages hrec
    rw [hfh, hdel] at hrun
    obtain ⟨rfl, -⟩ := Prod.mk.inj hrun
    exact ⟨hfile.pages, htab, hfile.records⟩

end Table

section Loops

open Table

variable {s s' : Session} {clauses : List SetClause} {rid : Rid}

theorem updateRow_file (hpages : s.table.fh.PagesOk) (hrun : s.updateRow clauses rid = (s', none)) :
    ∃ old new, s.table.fh.records rid = some old ∧ setRecord s.table.tab clauses old = .ok new ∧
      FileBecomes s.table rid (some new) s'.table := by
  rw [Session.updateRow] at hrun
  split at hrun
  · cases hrun
  · next old hget =>
    have hold := RmFileHandle.records_of_getRecord hget
    split at hrun
    · cases hrun
    · next new hset =>
      split at hrun
      · cases hrun
      · next t hloop =>
        obtain ⟨hfh, htab⟩ := (keepsFile_checkEntry old new).forEach hloop
        rcases hrep : t.replaceRow rid old new with ⟨t', o⟩
        simp only [hrep] at hrun
        obtain ⟨rfl, rfl⟩ := Prod.mk.inj hrun
        have hfile := replaceRow_file (hfh ▸ hpages) (by rw [hfh]; exact hold) hrep
        exact ⟨old, new, hold, hset, hfile.pages, hfile.tab.trans htab, by rw [hfile.records, hfh]⟩

theorem deleteRow_file (hpages : s.table.fh.PagesOk) (hrun : s.deleteRow rid = (s', none)) :
    FileBecomes s.table rid none s'.table := by
  rw [Session.deleteRow] at hrun
  split at hrun
  · cases hrun
  · next rec hget =>
    have hrec := RmFileHandle.records_of_getRecord hget
    rcases hrem : s.table.removeRow rid rec with ⟨t', o⟩
    simp only [hrem] at hrun
    obtain ⟨rfl, rfl⟩ := Prod.mk.inj hrun
    exact removeRow_file hpages hrec hrem

/-- The new record has the length of the old one. -/
theorem length_setRecord {tab : TabMeta} {old new : Bytes} (hfits : Fits tab old)
    (h : setRecord tab clauses old = .ok new) : new.length = old.length := by
  rcases setRecord_cases tab clauses with ⟨e, he⟩ | ⟨F, hF, hsets⟩
  · rw [he] at h
    cases h
  · rw [hF] at h
    obtain rfl := Except.ok.inj h
    exact (hsets old hfits).length old rfl

/-- **The rows of an `UPDATE`**: each of them has its new record, however often it was there, and no other row has
changed. -/
theorem updateRows_file : ∀ {rids : List Rid} {s s' : Session}, s.table.fh.PagesOk →
    (∀ rid rec, s.table.fh.records rid = some rec → Fits s.table.tab rec) →
    forEach (Session.updateRow clauses) rids s = (s', none) → s'.table.tab = s.table.tab ∧ ∀ rid,
      (rid ∈ rids → ∃ old new, s.table.fh.records rid = some old ∧ s'.table.fh.records rid = some new ∧
        setRecord s.table.tab clauses old = .ok new) ∧
      (rid ∉ rids → s'.table.fh.records rid = s.table.fh.records rid)
  | [], s, s', _, _, hrun => by
    cases hrun
    exact ⟨rfl, fun rid => ⟨fun h => absurd h List.not_mem_nil, fun _ => rfl⟩⟩
  | r :: rids, s, s', hpages, hfits, hrun => by
    rcases hrow : s.updateRow clauses r with ⟨s₁, _ | e⟩
    · rw [forEach_cons_ok hrow] at hrun
      obtain ⟨old, new, hold, hset, hfile⟩ := updateRow_file hpages hrow
      have hold' := hfits r old hold
      have hfits' : Fits s.table.tab new := fun c hc => by rw [length_setRecord hold' hset]; exact hold' c hc
      have hat : s₁.table.fh.records r = some new := by rw [hfile.records, Function.update_self]
      have hbeside : ∀ {x}, x ≠ r → s₁.table.fh.records x = s.table.fh.records x := fun hx => by
        rw [hfile.records, Function.update_of_ne hx]
      have hfits₁ : ∀ x rec, s₁.table.fh.records x = some rec → Fits s₁.table.tab rec := by
        intro x rec hx
        rw [hfile.tab]
        by_cases hxr : x = r
        · rw [hxr, hat] at hx
          rw [← Option.some.inj hx]
          exact hfits'
        · exact hfits x rec (hbeside hxr ▸ hx)
      obtain ⟨htab, hrest⟩ := updateRows_file hfile.pages hfits₁ hrun
      refine ⟨htab.trans hfile.tab, ?_⟩
      intro x
      obtain ⟨hin, hout⟩ := hrest x
      rw [hfile.tab] at hin
      by_cases hxr : x = r
      · subst hxr
        refine ⟨?_, fun h => absurd List.mem_cons_self h⟩
        intro _
        by_cases hx : x ∈ rids
        · -- the row comes again, and the clauses leave the record that they have made
          obtain ⟨old', new', hold₁, hnew', hset'⟩ := hin hx
          obtain rfl := Option.some.inj (hat.symm.trans hold₁)
          obtain rfl := Except.ok.inj ((setRecord_idem hold' hset).symm.trans hset')
          exact ⟨old, new, hold, hnew', hset⟩
        · exact ⟨old, new, hold, (hout hx).trans hat, hset⟩
      · constructor
        · intro h
          rw [← hbeside hxr]
          exact hin ((List.mem_cons.mp h).resolve_left hxr)
        · intro h
          rw [← hbeside hxr]
          exact hout fun hx => h (List.mem_cons_of_mem _ hx)
    · rw [forEach_cons_error hrow] at hrun
      cases hrun

/-- **The rows of a `DELETE`** are gone, and no other row has changed. -/
theorem deleteRows_file : ∀ {rids : List Rid} {s s' : Session}, s.table.fh.PagesOk →
    forEach Session.deleteRow rids s = (s', none) → s'.table.tab = s.table.tab ∧
      ∀ rid, s'.table.fh.records rid = if rid ∈ rids then none else s.table.fh.records rid
  | [], s, s', _, hrun => by
    cases hrun
    exact ⟨rfl, fun rid => rfl⟩
  | r :: rids, s, s', hpages, hrun => by
    rcases hrow : s.deleteRow r with ⟨s₁, _ | e⟩
    · rw [forEach_cons_ok hrow] at hrun
      have hfile := deleteRow_file hpages hrow
      obtain ⟨htab, hrest⟩ := deleteRows_file hfile.pages hrun
      refine ⟨htab.trans hfile.tab, ?_⟩
      intro x
      rw [hrest x, hfile.records]
      by_cases hxr : x = r
      · simp [hxr]
      · simp [hxr]
    · rw [forEach_cons_error hrow] at hrun
      cases hrun

end Loops

/-! ### Statements -/

/-- An index scan that the planner may have chosen finds the rows that a sequential scan finds. -/
def Table.ScanAgrees (t : Table) (conds : List Condition) : Prop :=
  ∀ indexColNames rids, Optimizer.getIndexCols t.tab conds = some indexColNames →
    indexScan t.tab t.fh t.ihs conds indexColNames = .ok rids →
    ∃ rids', seqScan t.tab t.fh conds = .ok rids' ∧ ∀ rid, rid ∈ rids ↔ rid ∈ rids'

/-- What has passed `check_clause` for one table can be evaluated on its records. -/
theorem condOk_of_checked {db : DbMeta} (hdb : db.Ok) {tabName : String} {tab : TabMeta}
    (htab : db.tabs tabName = some tab) {cond : Condition} {lhs : ColMeta} (h : Checked db [tabName] cond lhs) :
    CondOk tab.cols cond lhs := by
  obtain ⟨hname, hok⟩ := hdb.tabs htab
  have hcol : ∀ {name col}, ColOf db [tabName] name col → getCol tab.cols name = .ok col := by
    rintro name col ⟨hmem, tab', htab', hfound⟩
    have hnames := List.mem_singleton.mp hmem
    rw [hnames, htab] at htab'
    obtain rfl := Option.some.inj htab'
    have htabName : ∀ c ∈ tab.cols, c.tabName = name.tabName := fun c hc => by rw [(hok.cols c hc).1, hname, hnames]
    have hget := getCol_of_tab htabName
    rcases hfind : tab.cols.find? fun c => decide (c.name = name.colName) with _ | c
    · rw [TabMeta.getCol, hfind] at hfound
      cases hfound
    · rw [TabMeta.getCol, hfind] at hfound
      rw [hget, hfind]
      exact hfound
  refine ⟨hcol h.left, ?_, ?_⟩
  · intro hv
    obtain ⟨htype, -, hraw⟩ := h.val hv
    exact ⟨htype, hraw⟩
  · intro hv
    obtain ⟨rhs, hrhs, htype⟩ := h.col hv
    exact ⟨rhs, hcol hrhs, htype⟩

/-- **The rids of a statement** are those of the records that satisfy its conditions, whichever scan has found them. -/
theorem mem_scan_iff {t : Table} {conds : List Condition} (hconds : ∀ c ∈ conds, ∃ lhs, CondOk t.tab.cols c lhs)
    (hagrees : t.ScanAgrees conds) {rids : List Rid} (h : t.scan conds = .ok rids) (rid : Rid) :
    rid ∈ rids ↔ satisfies t.fh t.tab.cols conds rid = true := by
  have hseq : ∀ {rids'}, seqScan t.tab t.fh conds = .ok rids' →
      (rid ∈ rids' ↔ satisfies t.fh t.tab.cols conds rid = true) := fun h => by
    rw [seqScan_eq hconds] at h
    obtain rfl := Except.ok.inj h
    rw [List.mem_filter, RmFileHandle.mem_rids, and_iff_right_iff_imp]
    intro hsat
    rw [satisfies] at hsat
    split at hsat
    · next rec hrec => rw [hrec]; rfl
    · cases hsat
  rw [Table.scan] at h
  split at h
  · exact hseq h
  · next indexColNames hsel =>
    obtain ⟨rids', hrids', hmem⟩ := hagrees indexColNames rids hsel h
    rw [hmem, hseq hrids']

theorem getTable_tables {d : Database} {tabName : String} {t : Table} (h : d.getTable tabName = .ok t) :
    d.tables tabName = some t := by
  rw [Database.getTable] at h
  split at h
  · next t' ht' =>
    rw [ht', Except.ok.inj h]
  · cases h

/-- **What a statement changes.** An `UPDATE` or a `DELETE` that succeeds has changed or removed exactly the rows that
satisfied all conditions before it, in an `UPDATE` exactly the bytes of the columns that are set, whichever scan has
found the rows. -/
theorem rowStmt_exact {stmt : RowStmt} {d d' : Database} (hdb : d.meta.Ok)
    (hpages : ∀ t, d.tables stmt.tabName = some t → t.fh.PagesOk)
    (hfits : ∀ t, d.tables stmt.tabName = some t → ∀ rid rec, t.fh.records rid = some rec → Fits t.tab rec)
    (hagrees : ∀ t conds, d.tables stmt.tabName = some t →
      checkClause d.meta [stmt.tabName] (getClause stmt.svConds) = .ok conds → t.ScanAgrees conds)
    (hrun : stmt.exec d = (d', none)) : stmt.Exact d d' := by
  have hmeta : ∀ {tabName t}, d.tables tabName = some t → d.meta.tabs tabName = some t.tab := fun h => by
    simp only [Database.meta, h, Option.map_some]
  rw [RowStmt.exec] at hrun
  split at hrun
  · cases hrun
  · next t rows hstart =>
    rcases hexec : rows.exec ⟨t, d.writes⟩ with ⟨s, o⟩
    simp only [hexec] at hrun
    obtain ⟨rfl, rfl⟩ := Prod.mk.inj hrun
    cases stmt with
    | update tabName svSets svConds =>
      obtain ⟨clauses, hclauses, hstart⟩ := bind_eq_ok hstart
      obtain ⟨conds, hconds, hstart⟩ := bind_eq_ok hstart
      obtain ⟨t', ht, hstart⟩ := bind_eq_ok hstart
      obtain ⟨rids, hrids, hstart⟩ := bind_eq_ok hstart
      cases hstart
      replace ht := getTable_tables ht
      obtain ⟨allCols, -, hmap⟩ := bind_eq_ok hclauses
      have hset := mapM_analyzed (hmeta ht) hmap
      have hok : ∀ c ∈ conds, ∃ lhs, CondOk t.tab.cols c lhs := fun c hc =>
        (checkClause_checked hdb hconds c hc).imp fun _ h => condOk_of_checked hdb (hmeta ht) h
      have hmem := mem_scan_iff hok (hagrees t conds ht hconds) hrids
      obtain ⟨htab, hrows⟩ := updateRows_file (hpages t ht) (hfits t ht) hexec
      refine ⟨conds, t, s.table, ⟨hconds, ht, rfl, htab⟩, ?_⟩
      intro rid
      obtain ⟨hin, hout⟩ := hrows rid
      split_ifs with hsat
      · obtain ⟨old, new, hold, hnew, hset'⟩ := hin ((hmem rid).mpr hsat)
        exact ⟨old, new, hold, hnew, setRecord_setBytes hset (hfits t ht rid old hold) hset'⟩
      · exact hout fun h => hsat ((hmem rid).mp h)
    | delete tabName svConds =>
      obtain ⟨conds, hconds, hstart⟩ := bind_eq_ok hstart
      obtain ⟨t', ht, hstart⟩ := bind_eq_ok hstart
      obtain ⟨rids, hrids, hstart⟩ := bind_eq_ok hstart
      cases hstart
      replace ht := getTable_tables ht
      have hok : ∀ c ∈ conds, ∃ lhs, CondOk t.tab.cols c lhs := fun c hc =>
        (checkClause_checked hdb hconds c hc).imp fun _ h => condOk_of_checked hdb (hmeta ht) h
      have hmem := mem_scan_iff hok (hagrees t conds ht hconds) hrids
      obtain ⟨htab, hrows⟩ := deleteRows_file (hpages t ht) hexec
      refine ⟨conds, t, s.table, ⟨hconds, ht, rfl, htab⟩, ?_⟩
      intro rid
      rw [hrows rid]
      simp only [hmem rid]

/-! ### An `UPDATE` along its own index -/

/-- The table `k` with the rows `1` and `2`, and no other table. -/
def databaseK : Database := ⟨fun tabName => if tabName = "k" then some twoRows.table else none, []⟩

/-- `UPDATE k SET a = 5 WHERE a > 1`. -/
def updateK : RowStmt := .update "k" [("a", .intLit 5)] [⟨⟨"k", "a"⟩, .gt, .val (.intLit 1)⟩]

/-- `a > 1`, checked. -/
def condK : Condition := ⟨⟨"k", "a"⟩, .gt, true, ⟨"", ""⟩, valueK 1⟩

theorem condK_ok : ∀ c ∈ [condK], ∃ lhs, CondOk twoRows.table.tab.cols c lhs := by
  intro c hc
  obtain rfl : c = condK := List.mem_singleton.mp hc
  exact ⟨colK, rfl, fun _ => ⟨rfl, _, rfl, rfl⟩, nofun⟩

theorem databaseK_tables {tabName : String} {t : Table} (h : databaseK.tables tabName = some t) :
    tabName = "k" ∧ t = twoRows.table := by
  simp only [databaseK] at h
  split_ifs at h with hname
  exact ⟨hname, (Option.some.inj h).symm⟩

theorem databaseK_ok : databaseK.meta.Ok := by
  refine ⟨fun {tabName tab} h => ?_⟩
  obtain ⟨t, ht, rfl⟩ := Option.map_eq_some_iff.mp h
  obtain ⟨rfl, rfl⟩ := databaseK_tables ht
  refine ⟨rfl, by decide, ?_, ?_⟩
  · intro c hc
    obtain rfl : c = colK := List.mem_singleton.mp hc
    exact ⟨rfl, rfl⟩
  · intro index hindex c hc
    obtain rfl : index = ⟨"k", [colK]⟩ := List.mem_singleton.mp hindex
    obtain rfl : c = colK := List.mem_singleton.mp hc
    rfl

/-- The planner chooses the index on `a`, whose scan finds the second row as the sequential scan does; the row moves to
the other end of that index. -/
theorem rowStmt_exact_index : Optimizer.getIndexCols twoRows.table.tab [condK] = some ["a"] ∧
    ∃ d', updateK.exec databaseK = (d', none) ∧ updateK.Exact databaseK d' := by
  have hrun : updateK.exec databaseK = ((updateK.exec databaseK).1, none) := Prod.ext rfl (by decide +kernel)
  obtain ⟨hok, -, hfits⟩ := twoRows_spec
  refine ⟨by decide, _, hrun, rowStmt_exact databaseK_ok ?_ ?_ ?_ hrun⟩
  · intro t ht
    obtain ⟨-, rfl⟩ := databaseK_tables ht
    exact hok.pages
  · intro t ht
    obtain ⟨-, rfl⟩ := databaseK_tables ht
    exact hfits
  · intro t conds ht hconds indexColNames rids hsel hscan
    obtain ⟨-, rfl⟩ := databaseK_tables ht
    obtain rfl : [condK] = conds := Except.ok.inj (Eq.trans (by decide) hconds)
    obtain rfl : ["a"] = indexColNames := Option.some.inj (Eq.trans (by decide) hsel)
    have hindex : indexScan twoRows.table.tab twoRows.table.fh twoRows.table.ihs [condK] ["a"] = .ok [⟨1, 1⟩] := by
      decide +kernel
    obtain rfl := Except.ok.inj (hindex.symm.trans hscan)
    refine ⟨_, seqScan_eq condK_ok, ?_⟩
    intro rid
    rw [List.mem_singleton, List.mem_filter, RmFileHandle.mem_rids, satisfies, twoRows_ok.2.2, Function.update_apply,
      Function.update_apply]
    split_ifs with h₂ h₁
    · exact iff_of_true h₂ (by decide)
    · exact iff_of_false h₂ (by decide)
    · exact iff_of_false h₂ (by simp)

end Rmdb.Execution
