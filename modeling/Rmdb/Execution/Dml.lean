import Rmdb.Common.Value
import Rmdb.Index.Key
import Rmdb.Index.Map
import Rmdb.Lib.Buffer
import Rmdb.Lib.Loop
import Rmdb.Record.FreeList

/-!
# The statements that change a table

`InsertExecutor`, `UpdateExecutor` and `DeleteExecutor` on a table with its file and the
handles of its indexes. Their `Next` changes the file, the indexes and the transaction's
write set as it goes, and an exception leaves all of it as it is at that moment: nothing
catches it before `client_handler`, which prints it and then commits the transaction or
leaves it open. So a statement takes a state to a state and perhaps an error, not to a
state or an error.

The rows of an `UPDATE` or a `DELETE` are the rids that the scan below it has collected.
An index compares its keys by value; a key is what `ix_compare` sees of the bytes
(`keyVal`). The keys before and after an update are compared as bytes.
-/

namespace Rmdb

/-- The key of a record in an index, as `ix_compare` sees it. -/
def IndexMeta.key (index : IndexMeta) (rec : Bytes) : List ℤ := Index.keyVal index.shape (index.makeIndexKey rec)

namespace Execution

open Lib Record Index

/-- A table that is open: its catalog entry, its file, and the handles of its indexes. -/
structure Table where
  /-- The entry in `db_`. -/
  tab : TabMeta
  /-- The entry in `fhs_`. -/
  fh : RmFileHandle
  /-- The entries in `ihs_`. -/
  ihs : IndexMeta → IxIndexHandle (List ℤ)

/-- A table and `write_set_` of the transaction that changes it, in the order of the writes. -/
structure Session where
  /-- The table. -/
  table : Table
  /-- The write set. -/
  writes : List WriteRecord

/-- `SetClause`. -/
structure SetClause where
  /-- `lhs`. -/
  lhs : TabCol
  /-- `rhs`. -/
  rhs : Value

namespace Table

/-! ### Entries of the indexes -/

/-- `delete_entry` in one of the indexes, with the key of the record. -/
def deleteEntry (rec : Bytes) (index : IndexMeta) (t : Table) : Table × Option RMDBError :=
  match (t.ihs index).deleteEntry (index.key rec) with
  | some (ih, _) => ({ t with ihs := Function.update t.ihs index ih }, none)
  | none => (t, some .assertion)

/-- `insert_entry` in one of the indexes, with the key of the record. -/
def insertEntry (rid : Rid) (rec : Bytes) (index : IndexMeta) (t : Table) : Table × Option RMDBError :=
  match (t.ihs index).insertEntry (index.key rec) rid with
  | some (ih, _) => ({ t with ihs := Function.update t.ihs index ih }, none)
  | none => (t, some .assertion)

/-- The round of the loops that replace the entry of a record by that of another one, if the bytes of the keys differ. -/
def moveEntry (rid : Rid) (old new : Bytes) (index : IndexMeta) (t : Table) : Table × Option RMDBError :=
  if index.makeIndexKey old ≠ index.makeIndexKey new then
    match t.deleteEntry old index with
    | (t, some e) => (t, some e)
    | (t, none) => t.insertEntry rid new index
  else (t, none)

/-- The round of the loop of `InsertExecutor::Next`: the key must be new. -/
def insertNewEntry (rid : Rid) (rec : Bytes) (index : IndexMeta) (t : Table) : Table × Option RMDBError :=
  match (t.ihs index).getValue (index.key rec) with
  | none => (t, some .assertion)
  | some (some _) =>
    match t.fh.deleteRecord rid with
    | .error e => (t, some (.record e))
    | .ok fh => ({ t with fh := fh }, some (.indexExists t.tab.name index.colNames))
  | some none => t.insertEntry rid rec index

/-- The round of the loop of `UpdateExecutor::Next` that checks a new key. -/
def checkEntry (old new : Bytes) (index : IndexMeta) (t : Table) : Table × Option RMDBError :=
  if index.makeIndexKey old ≠ index.makeIndexKey new then
    match (t.ihs index).getValue (index.key new) with
    | none => (t, some .assertion)
    | some (some _) => (t, some (.indexExists t.tab.name index.colNames))
    | some none => (t, none)
  else (t, none)

/-! ### Rows -/

/-- The table with what an operation on its file has returned. -/
def withFile (t : Table) : Except RmError RmFileHandle → Table × Option RMDBError
  | .error e => (t, some (.record e))
  | .ok fh => ({ t with fh := fh }, none)

/-- A row is deleted: its entries first, then its record. `DeleteExecutor::Next` does this, and `abort` for an insertion. -/
def removeRow (rid : Rid) (rec : Bytes) (t : Table) : Table × Option RMDBError :=
  match forEach (deleteEntry rec) t.tab.indexes t with
  | (t, some e) => (t, some e)
  | (t, none) => t.withFile (t.fh.deleteRecord rid)

/-- A row is changed: its entries first, then its record. `UpdateExecutor::Next` does this, and `abort` for an update. -/
def replaceRow (rid : Rid) (old new : Bytes) (t : Table) : Table × Option RMDBError :=
  match forEach (moveEntry rid old new) t.tab.indexes t with
  | (t, some e) => (t, some e)
  | (t, none) => t.withFile (t.fh.updateRecord rid new)

/-- A row is put back under its rid: its record first, then its entries. `abort` does this for a deletion. -/
def restoreRow (rid : Rid) (rec : Bytes) (t : Table) : Table × Option RMDBError :=
  match t.withFile (t.fh.insertRecordAt rid rec) with
  | (t, some e) => (t, some e)
  | (t, none) => forEach (insertEntry rid rec) t.tab.indexes t

end Table

/-! ### Records -/

/-- The loop of `InsertExecutor::Next` that fills the record. -/
def fillRecord : List (ColMeta × Value) → Bytes → Except RMDBError Bytes
  | [], rec => .ok rec
  | (col, val) :: rest, rec =>
    if col.type ≠ val.type then .error (.incompatibleType col.type val.type)
    else do
      let val ← if val.raw.isNone then val.initRaw col.len else .ok val
      fillRecord rest (put rec col.offset ((val.raw.getD []).take col.len))

/-- The record of an `INSERT`. -/
def makeRecord (tab : TabMeta) (values : List Value) : Except RMDBError Bytes :=
  if values.length ≠ tab.cols.length then .error .invalidValueCount
  else fillRecord (tab.cols.zip values) (List.replicate tab.recordSize 0)

/-- The loop of `UpdateExecutor::Next` that makes the new record. A value without `raw` is a null pointer. -/
def setRecord (tab : TabMeta) : List SetClause → Bytes → Except RMDBError Bytes
  | [], rec => .ok rec
  | setClause :: rest, rec => do
    let col ← tab.getCol setClause.lhs.colName
    match setClause.rhs.raw with
    | none => .error .assertion
    | some raw => setRecord tab rest (put rec col.offset (raw.take col.len))

/-! ### The executors -/

namespace Session

/-- `InsertExecutor`. -/
def insert (values : List Value) (s : Session) : Session × Option RMDBError :=
  match makeRecord s.table.tab values with
  | .error e => (s, some e)
  | .ok rec =>
    match s.table.fh.insertRecord rec with
    | .error e => (s, some (.record e))
    | .ok (fh, rid) =>
      match forEach (Table.insertNewEntry rid rec) s.table.tab.indexes { s.table with fh := fh } with
      | (t, some e) => ({ s with table := t }, some e)
      | (t, none) => (⟨t, s.writes ++ [.insert t.tab.name rid]⟩, none)

/-- The round of `UpdateExecutor::Next` for one row. -/
def updateRow (setClauses : List SetClause) (rid : Rid) (s : Session) : Session × Option RMDBError :=
  match s.table.fh.getRecord rid with
  | .error e => (s, some (.record e))
  | .ok old =>
    match setRecord s.table.tab setClauses old with
    | .error e => (s, some e)
    | .ok new =>
      match forEach (Table.checkEntry old new) s.table.tab.indexes s.table with
      | (t, some e) => ({ s with table := t }, some e)
      | (t, none) =>
        let (t', e) := t.replaceRow rid old new
        (⟨t', s.writes ++ [.update t.tab.name rid old]⟩, e)

/-- The round of `DeleteExecutor::Next` for one row. -/
def deleteRow (rid : Rid) (s : Session) : Session × Option RMDBError :=
  match s.table.fh.getRecord rid with
  | .error e => (s, some (.record e))
  | .ok rec =>
    let (t, e) := s.table.removeRow rid rec
    (⟨t, s.writes ++ [.delete s.table.tab.name rid rec]⟩, e)

end Session

/-- A statement, with the rows it is about. -/
inductive Stmt where
  /-- `INSERT INTO t VALUES values`. -/
  | insert (values : List Value)
  /-- `UPDATE t SET setClauses`, on the rows that its scan has found. -/
  | update (setClauses : List SetClause) (rids : List Rid)
  /-- `DELETE FROM t`, on the rows that its scan has found. -/
  | delete (rids : List Rid)

/-- What a statement does, and the exception that ends it, if one does. -/
def Stmt.exec : Stmt → Session → Session × Option RMDBError
  | .insert values => Session.insert values
  | .update setClauses rids => forEach (Session.updateRow setClauses) rids
  | .delete rids => forEach Session.deleteRow rids

/-! ### What the operations do to the indexes -/

namespace Table

/-- The rid under a key of an index. -/
def entry (t : Table) (index : IndexMeta) (key : List ℤ) : Option Rid := ((t.ihs index).getValue key).join

/-- Every index of the table is a tree in order. -/
def IndexesOk (t : Table) : Prop := ∀ index ∈ t.tab.indexes, ∃ lv lvls, (t.ihs index).Inv lv lvls

theorem entry_eq {t : Table} {index : IndexMeta} {lv : List (Leaf (List ℤ))} {lvls : List (List (Inner (List ℤ)))}
    (h : (t.ihs index).Inv lv lvls) : t.entry index = lookupKey (contents lv) := by
  funext key
  simp [entry, h.getValue_eq key]

theorem IndexesOk.getValue_eq {t : Table} (h : t.IndexesOk) {index : IndexMeta} (hmem : index ∈ t.tab.indexes)
    (key : List ℤ) : (t.ihs index).getValue key = some (t.entry index key) := by
  obtain ⟨lv, lvls, hinv⟩ := h index hmem
  rw [hinv.getValue_eq, entry_eq hinv]

/-- What a loop over indexes has made of a table: it has rewritten their contents. -/
structure Rewritten (g : IndexMeta → (List ℤ → Option Rid) → List ℤ → Option Rid) (t : Table) (indexes : List IndexMeta)
    (t' : Table) : Prop where
  ok : t'.IndexesOk
  tab : t'.tab = t.tab
  fh : t'.fh = t.fh
  entry : ∀ i, t'.entry i = if i ∈ indexes then g i (t.entry i) else t.entry i

/-- One more index. -/
theorem Rewritten.snoc {g : IndexMeta → (List ℤ → Option Rid) → List ℤ → Option Rid} {t s s' : Table}
    {A : List IndexMeta} {index : IndexMeta} (hs : Rewritten g t A s) (hrew : Rewritten g s [index] s') (hnot : index ∉ A) :
    Rewritten g t (A ++ [index]) s' := by
  refine ⟨hrew.ok, hrew.tab.trans hs.tab, hrew.fh.trans hs.fh, ?_⟩
  intro i
  rw [hrew.entry, hs.entry]
  by_cases hi : i = index
  · subst hi
    simp [hnot]
  · simp [hi]

theorem not_mem_of_nodup_append {indexes A B : List IndexMeta} {index : IndexMeta} (hnd : indexes.Nodup)
    (hsplit : indexes = A ++ index :: B) : index ∉ A := by
  rw [hsplit] at hnd
  exact fun hA => (List.nodup_append.mp hnd).2.2 index hA index List.mem_cons_self rfl

/-- A round of such a loop, which cannot fail. -/
def Rewrites (g : IndexMeta → (List ℤ → Option Rid) → List ℤ → Option Rid)
    (body : IndexMeta → Table → Table × Option RMDBError) : Prop :=
  ∀ {t : Table} {index : IndexMeta}, t.IndexesOk → index ∈ t.tab.indexes →
    ∃ t', body index t = (t', none) ∧ Rewritten g t [index] t'

/-- A call on one of the indexes. -/
theorem apply_round {t : Table} (h : t.IndexesOk) {index : IndexMeta} (hmem : index ∈ t.tab.indexes)
    (op : IndexMeta → Op (List ℤ)) : ∃ ih, (op index).apply (t.ihs index) = some ih ∧
      Rewritten (fun i => (op i).applyMap) t [index] { t with ihs := Function.update t.ihs index ih } := by
  obtain ⟨lv, lvls, hinv⟩ := h index hmem
  obtain ⟨ih, lv', lvls', hrun, hinv', hmap⟩ := apply_inv hinv (op index)
  refine ⟨ih, hrun, ?_, rfl, rfl, ?_⟩
  · intro i hi
    by_cases hii : i = index
    · subst hii
      simp only [Function.update_self]
      exact ⟨lv', lvls', hinv'⟩
    · simp only [Function.update_of_ne hii]
      exact h i hi
  · intro i
    by_cases hii : i = index
    · subst hii
      rw [if_pos (by simp), entry_eq hinv, ← hmap]
      exact entry_eq (by simpa using hinv')
    · rw [if_neg (by simpa using hii)]
      funext key
      simp [entry, hii]

theorem rewrites_deleteEntry (rec : Bytes) :
    Rewrites (fun index => (Op.delete (index.key rec)).applyMap) (deleteEntry rec) := by
  intro t index h hmem
  obtain ⟨ih, hrun, hrew⟩ := apply_round h hmem fun index => .delete (index.key rec)
  refine ⟨_, ?_, hrew⟩
  simp only [Op.apply, Option.map_eq_some_iff] at hrun
  obtain ⟨⟨ih', b⟩, hrun, rfl⟩ := hrun
  simp only [deleteEntry, hrun]

theorem rewrites_insertEntry (rid : Rid) (rec : Bytes) :
    Rewrites (fun index => (Op.insert (index.key rec) rid).applyMap) (insertEntry rid rec) := by
  intro t index h hmem
  obtain ⟨ih, hrun, hrew⟩ := apply_round h hmem fun index => .insert (index.key rec) rid
  refine ⟨_, ?_, hrew⟩
  simp only [Op.apply, Option.map_eq_some_iff] at hrun
  obtain ⟨⟨ih', b⟩, hrun, rfl⟩ := hrun
  simp only [insertEntry, hrun]

/-- What replacing an entry does to the contents of an index. -/
def moveMap (rid : Rid) (old new : Bytes) (index : IndexMeta) (m : List ℤ → Option Rid) : List ℤ → Option Rid :=
  if index.makeIndexKey old ≠ index.makeIndexKey new then
    (Op.insert (index.key new) rid).applyMap ((Op.delete (index.key old)).applyMap m)
  else m

theorem rewrites_moveEntry (rid : Rid) (old new : Bytes) : Rewrites (moveMap rid old new) (moveEntry rid old new) := by
  intro t index h hmem
  unfold moveEntry
  split
  · rename_i hne
    obtain ⟨t₁, hrun₁, hrew₁⟩ := rewrites_deleteEntry old h hmem
    obtain ⟨t₂, hrun₂, hrew₂⟩ := rewrites_insertEntry rid new hrew₁.ok (show index ∈ t₁.tab.indexes by rwa [hrew₁.tab])
    refine ⟨t₂, by simp only [hrun₁, hrun₂], hrew₂.ok, hrew₂.tab.trans hrew₁.tab, hrew₂.fh.trans hrew₁.fh, ?_⟩
    intro i
    rw [hrew₂.entry, hrew₁.entry]
    by_cases hi : i = index
    · subst hi
      simp [moveMap, hne]
    · simp [hi]
  · rename_i heq
    refine ⟨t, rfl, h, rfl, rfl, ?_⟩
    intro i
    by_cases hi : i = index
    · subst hi
      rw [if_pos (by simp), moveMap, if_neg heq]
    · rw [if_neg (by simpa using hi)]

/-- **A loop over the indexes** rewrites the contents of each of them. -/
theorem Rewrites.forEach {g : IndexMeta → (List ℤ → Option Rid) → List ℤ → Option Rid}
    {body : IndexMeta → Table → Table × Option RMDBError} (hbody : Rewrites g body) {t : Table} (h : t.IndexesOk)
    {indexes : List IndexMeta} (hsub : ∀ index ∈ indexes, index ∈ t.tab.indexes) (hnd : indexes.Nodup) :
    ∃ t', Lib.forEach body indexes t = (t', none) ∧ Rewritten g t indexes t' := by
  have hinit : Rewritten g t [] t := ⟨h, rfl, rfl, fun i => by simp⟩
  refine forEach_inv hinit ?_
  rintro A index s ⟨B, hsplit⟩ hs
  have hmem : index ∈ indexes := by rw [hsplit]; simp
  obtain ⟨s', hrun, hrew⟩ := hbody hs.ok (show index ∈ s.tab.indexes by rw [hs.tab]; exact hsub index hmem)
  exact ⟨s', hrun, hs.snoc hrew (not_mem_of_nodup_append hnd hsplit)⟩

/-! ### What the operations do to a table -/

/-- A table in order. -/
structure Ok (t : Table) : Prop where
  /-- Every page counts its records. -/
  pages : t.fh.PagesOk
  /-- The file has its header page. -/
  first : RM_FIRST_RECORD_PAGE ≤ t.fh.numPages
  /-- The indexes are trees in order. -/
  indexes : t.IndexesOk
  /-- No index is there twice. -/
  nodup : t.tab.indexes.Nodup

/-- `t'` is `t` with the record under a rid changed and the contents of the indexes rewritten. -/
structure Becomes (t : Table) (rid : Rid) (o : Option Bytes)
    (g : IndexMeta → (List ℤ → Option Rid) → List ℤ → Option Rid) (t' : Table) : Prop where
  ok : t'.Ok
  tab : t'.tab = t.tab
  per : t'.fh.numRecordsPerPage = t.fh.numRecordsPerPage
  records : t'.fh.records = Function.update t.fh.records rid o
  entry : ∀ index ∈ t.tab.indexes, t'.entry index = g index (t.entry index)

section Rows

variable {t : Table} {rid : Rid} {rec : Bytes}

/-- A change of the file and a loop over the indexes, in either order. -/
theorem becomes_of_rewritten {t₁ t' : Table} {o : Option Bytes} {f' : RmFileHandle}
    {g : IndexMeta → (List ℤ → Option Rid) → List ℤ → Option Rid} (h : t.Ok) (hrew : Rewritten g t₁ t.tab.indexes t')
    (htab : t₁.tab = t.tab) (hihs : t₁.entry = t.entry) (hfile : RmFileHandle.Changed t.fh f' rid o) :
    Becomes t rid o g { t' with fh := f' } := by
  have htab' := hrew.tab.trans htab
  refine ⟨⟨hfile.pages, h.first.trans hfile.grows, hrew.ok, ?_⟩, htab', hfile.per, hfile.records, ?_⟩
  · simp only [htab']
    exact h.nodup
  · intro index hi
    have := hrew.entry index
    rw [if_pos hi, hihs] at this
    exact this

theorem removeRow_spec (h : t.Ok) (hrec : t.fh.records rid = some rec) : ∃ t', t.removeRow rid rec = (t', none) ∧
    Becomes t rid none (fun index => (Op.delete (index.key rec)).applyMap) t' := by
  obtain ⟨t', hrun, hrew⟩ := Rewrites.forEach (rewrites_deleteEntry rec) h.indexes (fun _ hi => hi) h.nodup
  obtain ⟨f', hdel, hfile⟩ := RmFileHandle.deleteRecord_spec h.pages hrec
  refine ⟨{ t' with fh := f' }, ?_, becomes_of_rewritten h hrew rfl rfl hfile⟩
  simp only [removeRow, hrun, hrew.fh, hdel, withFile]

theorem replaceRow_spec (h : t.Ok) (hrec : t.fh.records rid = some rec) (old new : Bytes) : ∃ t', t.replaceRow rid old new = (t', none) ∧
    Becomes t rid (some new) (moveMap rid old new) t' := by
  obtain ⟨t', hrun, hrew⟩ := Rewrites.forEach (rewrites_moveEntry rid old new) h.indexes (fun _ hi => hi) h.nodup
  obtain ⟨f', hupd, hfile⟩ := RmFileHandle.updateRecord_spec h.pages hrec new
  refine ⟨{ t' with fh := f' }, ?_, becomes_of_rewritten h hrew rfl rfl hfile⟩
  simp only [replaceRow, hrun, hrew.fh, hupd, withFile]

theorem restoreRow_spec (h : t.Ok) (rec : Bytes) (hrid : RmFileHandle.RidOk t.fh.numRecordsPerPage rid)
    (hnone : t.fh.records rid = none) : ∃ t', t.restoreRow rid rec = (t', none) ∧
      Becomes t rid (some rec) (fun index => (Op.insert (index.key rec) rid).applyMap) t' := by
  obtain ⟨f', hins, hfile⟩ := RmFileHandle.insertRecordAt_spec h.pages hrid hnone rec
  have hok : ({ t with fh := f' } : Table).IndexesOk := h.indexes
  obtain ⟨t', hrun, hrew⟩ := Rewrites.forEach (rewrites_insertEntry rid rec) hok (fun _ hi => hi) h.nodup
  refine ⟨t', ?_, ?_⟩
  · simp only [restoreRow, withFile, hins]
    exact hrun
  · have hbec : Becomes t rid (some rec) _ { t' with fh := f' } := becomes_of_rewritten h hrew rfl rfl hfile
    have hfh : t'.fh = f' := hrew.fh
    rwa [← hfh] at hbec

/-! ### Checks of keys -/

/-- An index has the new key of a changed record. -/
def Rejects (t : Table) (old new : Bytes) (index : IndexMeta) : Prop :=
  index.makeIndexKey old ≠ index.makeIndexKey new ∧ t.entry index (index.key new) ≠ none

theorem checkEntry_eq (h : t.IndexesOk) (old new : Bytes) {index : IndexMeta} (hmem : index ∈ t.tab.indexes) :
    (t.Rejects old new index → checkEntry old new index t = (t, some (.indexExists t.tab.name index.colNames))) ∧
      (¬ t.Rejects old new index → checkEntry old new index t = (t, none)) := by
  unfold Rejects checkEntry
  rw [h.getValue_eq hmem]
  by_cases hne : index.makeIndexKey old = index.makeIndexKey new
  · simp [hne]
  · cases he : t.entry index (index.key new) with
    | none => simp [hne]
    | some r => simp [hne]

/-- **The check of the new keys** changes nothing, and fails if an index has the new key. -/
theorem checkEntries_spec (h : t.IndexesOk) {old new : Bytes} : ∀ {indexes : List IndexMeta}, (∀ index ∈ indexes, index ∈ t.tab.indexes) →
    ((∀ index ∈ indexes, ¬ t.Rejects old new index) → forEach (checkEntry old new) indexes t = (t, none)) ∧
      ((∃ index ∈ indexes, t.Rejects old new index) → ∃ e, forEach (checkEntry old new) indexes t = (t, some e))
  | [], _ => ⟨fun _ => rfl, fun ⟨_, hi, _⟩ => by cases hi⟩
  | index :: indexes, hsub => by
    obtain ⟨hyes, hno⟩ := checkEntry_eq h old new (hsub index List.mem_cons_self)
    obtain ⟨ih, ih'⟩ := checkEntries_spec h fun i hi => hsub i (List.mem_cons_of_mem _ hi)
    constructor
    · intro hall
      rw [forEach_cons_ok (hno (hall index List.mem_cons_self))]
      exact ih fun i hi => hall i (List.mem_cons_of_mem _ hi)
    · rintro ⟨i, hi, hrej⟩
      by_cases hidx : t.Rejects old new index
      · exact ⟨_, forEach_cons_error (hyes hidx)⟩
      · rw [forEach_cons_ok (hno hidx)]
        rcases List.mem_cons.mp hi with rfl | hi
        · exact absurd hrej hidx
        · exact ih' ⟨i, hi, hrej⟩

theorem insertNewEntry_eq (h : t.IndexesOk) {index : IndexMeta} (hmem : index ∈ t.tab.indexes) :
    (t.entry index (index.key rec) = none → insertNewEntry rid rec index t = insertEntry rid rec index t) ∧
      (t.entry index (index.key rec) ≠ none → ∀ f', t.fh.deleteRecord rid = .ok f' →
        insertNewEntry rid rec index t = ({ t with fh := f' }, some (.indexExists t.tab.name index.colNames))) := by
  unfold insertNewEntry
  rw [h.getValue_eq hmem]
  cases he : t.entry index (index.key rec) with
  | none => simp
  | some r =>
    refine ⟨by simp, ?_⟩
    intro _ f' hf'
    simp only [hf']

/-- **The loop of an `INSERT`** over indexes that do not have the key adds an entry to each of them. -/
theorem insertEntries_spec (h : t.IndexesOk) (rid : Rid) {indexes : List IndexMeta} (hsub : ∀ index ∈ indexes, index ∈ t.tab.indexes)
    (hnd : indexes.Nodup) (hnew : ∀ index ∈ indexes, t.entry index (index.key rec) = none) :
    ∃ t', forEach (insertNewEntry rid rec) indexes t = (t', none) ∧
      Rewritten (fun index => (Op.insert (index.key rec) rid).applyMap) t indexes t' := by
  have hinit : Rewritten (fun index => (Op.insert (index.key rec) rid).applyMap) t [] t := ⟨h, rfl, rfl, fun i => by simp⟩
  refine forEach_inv hinit ?_
  rintro A index s ⟨B, hsplit⟩ hs
  have hmem : index ∈ indexes := by rw [hsplit]; simp
  have hmem' : index ∈ s.tab.indexes := by rw [hs.tab]; exact hsub index hmem
  have hnot := not_mem_of_nodup_append hnd hsplit
  have hfree : s.entry index (index.key rec) = none := by
    rw [hs.entry, if_neg hnot]
    exact hnew index hmem
  obtain ⟨s', hrun, hrew⟩ := rewrites_insertEntry rid rec hs.ok hmem'
  exact ⟨s', ((insertNewEntry_eq hs.ok hmem').1 hfree).trans hrun, hs.snoc hrew hnot⟩

/-- **The loop of an `INSERT`** ends at the first index that has the key. -/
theorem insertEntries_rejected (h : t.IndexesOk) {A B : List IndexMeta} {index : IndexMeta}
    (hsub : ∀ i ∈ A ++ index :: B, i ∈ t.tab.indexes) (hnd : (A ++ index :: B).Nodup)
    (hnew : ∀ i ∈ A, t.entry i (i.key rec) = none) (hold : t.entry index (index.key rec) ≠ none) {f' : RmFileHandle}
    (hdel : t.fh.deleteRecord rid = .ok f') :
    ∃ t₁, Rewritten (fun i => (Op.insert (i.key rec) rid).applyMap) t A t₁ ∧
      forEach (insertNewEntry rid rec) (A ++ index :: B) t =
        ({ t₁ with fh := f' }, some (.indexExists t.tab.name index.colNames)) := by
  obtain ⟨t₁, hrun, hrew⟩ := insertEntries_spec h rid (fun i hi => hsub i (List.mem_append_left _ hi))
    (List.nodup_append.mp hnd).1 hnew
  have hmem : index ∈ t₁.tab.indexes := by
    rw [hrew.tab]
    exact hsub index (by simp)
  have hold' : t₁.entry index (index.key rec) ≠ none := by
    rw [hrew.entry, if_neg (not_mem_of_nodup_append hnd rfl)]
    exact hold
  have hstop := (insertNewEntry_eq hrew.ok hmem).2 hold' f' (by rw [hrew.fh]; exact hdel)
  refine ⟨t₁, hrew, ?_⟩
  rw [forEach_append_ok hrun, forEach_cons_error hstop, hrew.tab]

/-- Either no index has the key, or there is a first one that has. -/
theorem first_with_key (t : Table) (rec : Bytes) (indexes : List IndexMeta) :
    (∀ index ∈ indexes, t.entry index (index.key rec) = none) ∨
      ∃ A index B, indexes = A ++ index :: B ∧ (∀ i ∈ A, t.entry i (i.key rec) = none) ∧
        t.entry index (index.key rec) ≠ none := by
  cases hfind : indexes.find? fun i => (t.entry i (i.key rec)).isSome with
  | none =>
    refine Or.inl ?_
    intro index hi
    have := List.find?_eq_none.mp hfind index hi
    simpa using this
  | some index =>
    obtain ⟨hsome, A, B, hsplit, hA⟩ := List.find?_eq_some_iff_append.mp hfind
    refine Or.inr ⟨A, index, B, hsplit, ?_, ?_⟩
    · intro i hi
      have := hA i hi
      simpa using this
    · exact Option.isSome_iff_ne_none.mp hsome

end Rows

end Table

/-! ### What the statements do -/

namespace Session

open Table

section Executors

variable {s s' : Session} {rid : Rid}

/-- **An `INSERT` that succeeds** adds a record under a new rid, and its entries. -/
theorem insert_cases (h : s.table.Ok) {values : List Value} (hrun : s.insert values = (s', none)) :
    ∃ rec rid, s.table.fh.insertRecord rec = .ok (s'.table.fh, rid) ∧ makeRecord s.table.tab values = .ok rec ∧
      s'.writes = s.writes ++ [.insert s.table.tab.name rid] ∧ s.table.fh.records rid = none ∧
      RmFileHandle.RidOk s.table.fh.numRecordsPerPage rid ∧
      (∀ index ∈ s.table.tab.indexes, s.table.entry index (index.key rec) = none) ∧
      Becomes s.table rid (some rec) (fun index => (Op.insert (index.key rec) rid).applyMap) s'.table := by
  unfold Session.insert at hrun
  split at hrun
  · cases hrun
  · rename_i rec hrec
    split at hrun
    · cases hrun
    · rename_i f' rid hins
      obtain ⟨hnone, hridok, hfile⟩ := RmFileHandle.insertRecord_cases h.pages h.first hins
      have hok : ({ s.table with fh := f' } : Table).IndexesOk := h.indexes
      have hstored : f'.records rid = some rec := by rw [hfile.records, Function.update_self]
      obtain ⟨f₂, hdel, -⟩ := RmFileHandle.deleteRecord_spec hfile.pages hstored
      rcases first_with_key { s.table with fh := f' } rec s.table.tab.indexes with hall | ⟨A, index, B, hsplit, hA, hold⟩
      · obtain ⟨t', hloop, hrew⟩ := insertEntries_spec hok rid (fun _ hi => hi) h.nodup hall
        rw [hloop] at hrun
        obtain ⟨rfl, -⟩ := Prod.mk.inj hrun
        have hfh : t'.fh = f' := hrew.fh
        have hbec : Becomes s.table rid (some rec) _ { t' with fh := f' } := becomes_of_rewritten h hrew rfl rfl hfile
        rw [← hfh] at hbec
        exact ⟨rec, rid, by rw [hfh, hins], hrec, by rw [hrew.tab], hnone, hridok, hall, hbec⟩
      · have hsub : ∀ i ∈ A ++ index :: B, i ∈ s.table.tab.indexes := by rw [← hsplit]; exact fun _ hi => hi
        obtain ⟨t₁, -, hloop⟩ := insertEntries_rejected hok hsub (by rw [← hsplit]; exact h.nodup) hA hold hdel
        rw [hsplit, hloop] at hrun
        cases hrun

/-- **A row that is updated** had a record, and no index has its new key. -/
theorem updateRow_cases (h : s.table.Ok) {setClauses : List SetClause} (hrun : s.updateRow setClauses rid = (s', none)) :
    ∃ old new, s.table.fh.records rid = some old ∧ setRecord s.table.tab setClauses old = .ok new ∧
      s'.writes = s.writes ++ [.update s.table.tab.name rid old] ∧
      (∀ index ∈ s.table.tab.indexes, ¬ s.table.Rejects old new index) ∧
      Becomes s.table rid (some new) (moveMap rid old new) s'.table := by
  unfold updateRow at hrun
  split at hrun
  · cases hrun
  · rename_i old hget
    have hold := RmFileHandle.records_of_getRecord hget
    split at hrun
    · cases hrun
    · rename_i new hset
      by_cases hrej : ∃ index ∈ s.table.tab.indexes, s.table.Rejects old new index
      · obtain ⟨e, hcheck⟩ := (checkEntries_spec h.indexes fun _ hi => hi).2 hrej
        rw [hcheck] at hrun
        cases hrun
      · have hno : ∀ index ∈ s.table.tab.indexes, ¬ s.table.Rejects old new index := fun i hi hi' => hrej ⟨i, hi, hi'⟩
        rw [(checkEntries_spec h.indexes fun _ hi => hi).1 hno] at hrun
        obtain ⟨t', hrep, hbec⟩ := replaceRow_spec h hold old new
        simp only [hrep] at hrun
        obtain ⟨rfl, -⟩ := Prod.mk.inj hrun
        exact ⟨old, new, hold, hset, rfl, hno, hbec⟩

/-- **A row that is deleted** had a record. -/
theorem deleteRow_cases (h : s.table.Ok) (hrun : s.deleteRow rid = (s', none)) :
    ∃ rec, s.table.fh.records rid = some rec ∧ s'.writes = s.writes ++ [.delete s.table.tab.name rid rec] ∧
      Becomes s.table rid none (fun index => (Op.delete (index.key rec)).applyMap) s'.table := by
  unfold deleteRow at hrun
  split at hrun
  · cases hrun
  · rename_i rec hget
    have hrec := RmFileHandle.records_of_getRecord hget
    obtain ⟨t', hrem, hbec⟩ := removeRow_spec h hrec
    simp only [hrem] at hrun
    obtain ⟨rfl, -⟩ := Prod.mk.inj hrun
    exact ⟨rec, hrec, rfl, hbec⟩

end Executors

end Session

end Execution

end Rmdb
