import Rmdb.System.Descriptors
import Mathlib.Logic.Relation

/-!
# `SmManager`

The catalog in memory, the open handles by name, and the files under them. `create_table`,
`drop_table`, `create_index` and `drop_index` change all three, as do opening and closing the
database and the rebuilding of an index in recovery. The catalog's own file, which `flush_meta`
writes, is not among the files here.

An operation that throws leaves the state in which it was thrown. What `create_index` calls
to load the new index (the scan of the table, `get_value`, `insert_entry`) is a parameter, of
which only is asked that it works through the handles.
-/

namespace Rmdb.Fs

open Lib Storage
open Catalog (SchemaOk placeCols)
open Function (update)
open Relation (ReflTransGen)

/-- `SmManager`. -/
structure Sm where
  /-- The managers below. -/
  files : Files
  /-- `db_`. -/
  db : Catalog.DbMeta
  /-- `fhs_`: the descriptor of a table's handle. -/
  fhs : String → Option ℤ
  /-- `ihs_`: the descriptor of an index's handle. -/
  ihs : String → Option ℤ

/-- A program on the state of `SmManager`. -/
abbrev SmM := EStateM DbError Sm

/-- A call of a manager below. -/
def call {α : Type} (x : FileM α) : SmM α := fun s =>
  match x s.files with
  | .ok a files => .ok a { s with files := files }
  | .error e files => .error e { s with files := files }

/-- `emplace`: an entry that is there stays. -/
def emplace (m : String → Option ℤ) (name : String) (fd : ℤ) : String → Option ℤ :=
  if m name = none then update m name (some fd) else m

/-! ### The catalog -/

/-- `get_table`. -/
def getTable (tabName : String) : SmM Catalog.TabMeta := fun s =>
  match s.db.tabs.find tabName with
  | some tab => .ok tab s
  | none => .error (.tableNotFound tabName) s

/-- Does an index have these columns? -/
def hasCols (colNames : List String) (index : Catalog.IndexMeta) : Bool :=
  index.colNum.toInt = colNames.length && (index.cols.map (·.name)).take colNames.length = colNames

/-- `get_col`. -/
def getCol (tab : Catalog.TabMeta) (colName : String) : Option Catalog.ColMeta := tab.cols.find? (·.name = colName)

/-- The columns of an index that is created; the first that is not found is thrown. -/
def getCols (tab : Catalog.TabMeta) : List String → Except DbError (List Catalog.ColMeta)
  | [] => .ok []
  | colName :: colNames =>
    match getCol tab colName with
    | none => .error (.columnNotFound colName)
    | some col => (getCols tab colNames).map (col :: ·)

/-- An `Except` as a program. -/
def ofExcept {α : Type} : Except DbError α → SmM α
  | .ok a => pure a
  | .error e => throw e

/-- A table changes in the catalog. -/
def setTable (tabName : String) (tab : Catalog.TabMeta) : SmM Unit := modify fun s =>
  { s with db := { s.db with tabs := s.db.tabs.assign tabName tab } }

/-! ### Tables -/

/-- `create_table`. -/
def createTable (osCreate osOpen : Os) (tabName : String) (colDefs : List Catalog.ColDef) : SmM Unit := fun s =>
  match s.db.tabs.find tabName with
  | some _ => .error (.tableExists tabName) s
  | none =>
    (do
      let (cols, recordSize) := placeCols tabName 0 colDefs
      call (RmManager.createFile osCreate tabName recordSize)
      setTable tabName ⟨tabName, cols, []⟩
      let fd ← call (RmManager.openFile osOpen tabName)
      modify fun s => { s with fhs := emplace s.fhs tabName fd } : SmM Unit) s

/-! ### Indexes -/

/-- What the load of an index calls: the records of the table in the order of the scan, and the methods of the two
handles. -/
structure Access where
  /-- The records that `RmScan` visits. -/
  rids : List Rid
  /-- `get_record`. -/
  getRecord : ℤ → Rid → FileM Bytes
  /-- `get_value`: is there an entry? -/
  getValue : ℤ → Bytes → FileM Bool
  /-- `insert_entry`. -/
  insertEntry : ℤ → Bytes → Rid → FileM Unit
  /-- `RmScan::next`. -/
  next : ℤ → FileM Unit

/-- The key of a record. A vector of negative length is not made; a copy of a negative length, or one outside the
record or the key, ends the process. -/
def makeKey (cols : List Catalog.ColMeta) (record : Bytes) : Except DbError Bytes :=
  if (IxManager.colTotLen cols).toInt < 0 then .error .lengthError
  else if (∀ col ∈ cols, 0 ≤ col.len.toInt ∧ 0 ≤ col.offset.toInt ∧ col.offset.toInt + col.len.toInt ≤ record.length) ∧
      (cols.map (·.len.toInt)).sum = (IxManager.colTotLen cols).toInt then
    .ok (cols.flatMap fun col => (record.drop col.offset.toInt.toNat).take col.len.toInt.toNat)
  else .error .died

/-- The loop that loads an index. -/
def load (acc : Access) (tabName : String) (colNames : List String) (cols : List Catalog.ColMeta) (tableFd fd : ℤ) :
    List Rid → SmM Unit
  | [] => pure ()
  | rid :: rids => do
    let record ← call (acc.getRecord tableFd rid)
    let key ← ofExcept (makeKey cols record)
    let found ← call (acc.getValue fd key)
    if found then throw (.indexExists tabName colNames)
    else do
      call (acc.insertEntry fd key rid)
      call (acc.next tableFd)
      load acc tabName colNames cols tableFd fd rids

/-- The first column of a name is marked as indexed. -/
def markIndexed (cols : List Catalog.ColMeta) (colName : String) : List Catalog.ColMeta :=
  match cols with
  | [] => []
  | col :: cols => if col.name = colName then { col with index := true } :: cols else col :: markIndexed cols colName

/-- The answers of the operating system during `create_index`. -/
structure IndexOs where
  /-- For `IxManager::create_index`. -/
  create : Os
  /-- For `open_index`. -/
  opens : Os
  /-- For `close_index`. -/
  close : Os
  /-- For `destroy_index`. -/
  destroy : Os

/-- `fhs_.at`. -/
def tableHandle (tabName : String) : SmM ℤ := fun s =>
  match s.fhs tabName with
  | some fd => .ok fd s
  | none => .error .outOfRange s

/-- `create_index`. -/
def createIndex (os : IndexOs) (acc : Access) (tabName : String) (colNames : List String) : SmM Unit := do
  let tab ← getTable tabName
  if tab.indexes.any (hasCols colNames) then throw (.indexExists tabName colNames)
  else do
    let cols ← ofExcept (getCols tab colNames)
    let ixName := IxManager.getIndexName tabName (cols.map (·.name))
    call (IxManager.createIndex os.create ixName cols)
    let fd ← call (IxManager.openIndex os.opens ixName)
    tryCatch (do
      let tableFd ← tableHandle tabName
      load acc tabName colNames cols tableFd fd acc.rids) fun e =>
        if e = .died then throw .died
        else do
          call (IxManager.closeIndex os.close fd)
          call (IxManager.destroyIndex os.destroy ixName)
          throw e
    setTable tabName { tab with
      indexes := tab.indexes ++ [⟨tabName, IxManager.colTotLen cols, Int32.ofNat cols.length, cols⟩]
      cols := (cols.map (·.name)).foldl markIndexed tab.cols }
    modify fun s => { s with ihs := emplace s.ihs ixName fd }

/-- An index is closed if `ihs_` has it. -/
def closeIfOpen (os : Os) (ixName : String) : SmM Unit := fun s =>
  match s.ihs ixName with
  | some fd =>
    (do
      call (IxManager.closeIndex os fd)
      modify fun s => { s with ihs := update s.ihs ixName none } : SmM Unit) s
  | none => .ok () s

/-- `drop_index`. -/
def dropIndex (osClose osDestroy : Os) (tabName : String) (colNames : List String) : SmM Unit := do
  let tab ← getTable tabName
  match tab.indexes.find? (hasCols colNames) with
  | none => throw (.indexNotFound tab.name colNames)
  | some index => do
    let ixName := IxManager.getIndexName tabName (index.cols.map (·.name))
    closeIfOpen osClose ixName
    call (IxManager.destroyIndex osDestroy ixName)
    let indexes := tab.indexes.eraseP (hasCols colNames)
    setTable tabName { tab with
      indexes := indexes
      cols := tab.cols.map fun col => { col with
        index := indexes.any fun index => index.cols.any fun indexCol => indexCol.name = col.name } }

/-- The loop of `drop_table`: it drops the last index until there is none, one in every round. -/
def dropIndexes (os : ℕ → Os × Os) (tabName : String) : ℕ → SmM Unit
  | 0 => pure ()
  | n + 1 => do
    let tab ← getTable tabName
    match tab.indexes.getLast? with
    | none => pure ()
    | some index => do
      dropIndex (os n).1 (os n).2 tabName (index.cols.map (·.name))
      dropIndexes os tabName n

/-- `drop_table`. -/
def dropTable (os : ℕ → Os × Os) (osClose osDestroy : Os) (tabName : String) : SmM Unit := do
  let tab ← getTable tabName
  dropIndexes os tabName tab.indexes.length
  let fd ← tableHandle tabName
  call (RmManager.closeFile osClose fd)
  modify fun s => { s with fhs := update s.fhs tabName none }
  call (RmManager.destroyFile osDestroy tabName)
  modify fun s => { s with db := { s.db with tabs := s.db.tabs.erase tabName } }

/-! ### The database -/

/-- The indexes of a table are opened. -/
def openIndexes (os : String → Os) (tabName : String) : List Catalog.IndexMeta → SmM Unit
  | [] => pure ()
  | index :: indexes => do
    let ixName := IxManager.getIndexName tabName (index.cols.map (·.name))
    let fd ← call (IxManager.openIndex (os ixName) ixName)
    modify fun s => { s with ihs := emplace s.ihs ixName fd }
    openIndexes os tabName indexes

/-- The tables are opened, with their indexes. -/
def openTables (os : String → Os) : List Catalog.TabMeta → SmM Unit
  | [] => pure ()
  | tab :: tabs => do
    let fd ← call (RmManager.openFile (os tab.name) tab.name)
    modify fun s => { s with fhs := emplace s.fhs tab.name fd }
    openIndexes os tab.name tab.indexes
    openTables os tabs

/-- `open_db`, with the catalog that is read. -/
def openDb (os : String → Os) (db : Catalog.DbMeta) : SmM Unit := do
  modify fun s => { s with db := db }
  openTables os (db.tabs.pairs.map (·.2))

/-- Handles are closed, in the order in which a map has them. -/
def closeAll (close : ℤ → FileM Unit) : List ℤ → SmM Unit
  | [] => pure ()
  | fd :: fds => do
    call (close fd)
    closeAll close fds

/-- `close_db`, with the handles of the indexes and of the tables. -/
def closeDb (os : ℤ → Os) (indexFds tableFds : List ℤ) : SmM Unit := do
  closeAll (fun fd => IxManager.closeIndex (os fd) fd) indexFds
  modify fun s => { s with ihs := fun _ => none }
  closeAll (fun fd => RmManager.closeFile (os fd) fd) tableFds
  modify fun s => { s with fhs := fun _ => none }

/-- An index file is destroyed if `exists` finds it. -/
def destroyIfExists (os : Os) (ixName : String) : FileM Unit := fun s =>
  if (s.dir ixName).isSome then IxManager.destroyIndex os ixName s else .ok () s

/-- A round of `RecoveryManager::rebuild_indexes`. The records are inserted without a check. -/
def rebuildIndex (os : IndexOs) (osReopen osReclose : Os) (insertAll : ℤ → ℤ → FileM Unit) (tabName : String)
    (index : Catalog.IndexMeta) : SmM Unit := do
  let ixName := IxManager.getIndexName tabName (index.cols.map (·.name))
  closeIfOpen os.close ixName
  call (destroyIfExists os.destroy ixName)
  call (IxManager.createIndex os.create ixName index.cols)
  let fd ← call (IxManager.openIndex os.opens ixName)
  modify fun s => { s with ihs := update s.ihs ixName (some fd) }
  let tableFd ← tableHandle tabName
  call (insertAll tableFd fd)
  call (IxManager.closeIndex osReclose fd)
  modify fun s => { s with ihs := update s.ihs ixName none }
  let fd ← call (IxManager.openIndex osReopen ixName)
  modify fun s => { s with ihs := update s.ihs ixName (some fd) }

/-! ### The files stay in order -/

/-- As far as the answers were true, the files are in order. -/
def InOrder (s : Sm) : Prop := s.files.honest → Good s.files

/-- A program that keeps the files in order, unless the process ends. -/
def Keeps {α : Type} (x : SmM α) : Prop := Triple InOrder x (fun _ => InOrder) fun e s => e = .died ∨ InOrder s

/-- A program that works through the handles of open files. -/
def ThroughHandles {α : Type} (x : FileM α) : Prop :=
  ∀ s, EndsIn (fun _ s' => ReflTransGen Use s s') (fun e s' => e = .died ∨ ReflTransGen Use s s') (x s)

/-- The calls of the load work through the handles. -/
structure Access.Ok (acc : Access) : Prop where
  getRecord : ∀ fd rid, ThroughHandles (acc.getRecord fd rid)
  getValue : ∀ fd key, ThroughHandles (acc.getValue fd key)
  insertEntry : ∀ fd key rid, ThroughHandles (acc.insertEntry fd key rid)
  next : ∀ fd, ThroughHandles (acc.next fd)

namespace Keeps

variable {α β : Type}

theorem bind {x : SmM α} {f : α → SmM β} (hx : Keeps x) (hf : ∀ a, Keeps (f a)) : Keeps (x >>= f) := Triple.bind hx hf

theorem pure (a : α) : Keeps (Pure.pure a : SmM α) := Triple.pure fun _ h => h

theorem throw (e : DbError) : Keeps (throw e : SmM α) := Triple.throw fun _ h => .inr h

/-- A change of what is not in the files. -/
theorem modify {f : Sm → Sm} (h : ∀ s, (f s).files = s.files) : Keeps (modify f) :=
  Triple.modify fun s hs hh => by
    rw [h s] at hh ⊢
    exact hs hh

theorem modify_bind {f : Sm → Sm} {g : PUnit → SmM β} (h : ∀ s, (f s).files = s.files) (hg : ∀ a, Keeps (g a)) :
    Keeps (MonadState.modifyGet (fun s => (PUnit.unit, f s)) >>= g) := (Keeps.modify h).bind hg

theorem call {x : FileM α} (h : Spec Good x fun _ => Good) : Keeps (call x) := by
  intro s hs
  have h := h s.files hs
  unfold Fs.call
  rcases hx : x s.files with ⟨a, f⟩ | ⟨e, f⟩
  · rw [hx] at h
    exact h
  · rw [hx] at h
    exact h

theorem tryCatch {x : SmM α} {f : DbError → SmM α} (hx : Keeps x) (hf : ∀ e, e ≠ .died → Keeps (f e))
    (hdied : f .died = MonadExcept.throw .died) : Keeps (MonadExcept.tryCatch x f) := by
  refine Triple.tryCatch hx ?_
  intro e
  by_cases he : e = .died
  · subst he
    rw [hdied]
    exact Triple.throw fun _ _ => .inl rfl
  · exact (hf e he).conseq (fun s hs => hs.resolve_left he) (fun _ _ => id) fun _ _ => id

/-- A program that does one thing or another with the state it finds. -/
theorem of_state {x : SmM α} (h : ∀ s, ∃ y : SmM α, x s = y s ∧ Keeps y) : Keeps x := by
  intro s hs
  obtain ⟨y, hxy, hy⟩ := h s
  rw [hxy]
  exact hy s hs

end Keeps

theorem Good.uses {s s' : Files} (h : Good s) (huse : ReflTransGen Use s s') : Good s' := by
  induction huse with
  | refl => exact h
  | tail _ hstep ih => exact ih.use hstep

theorem Use.honest {s s' : Files} (h : Use s s') : s'.honest = s.honest := by
  cases h <;> rfl

theorem uses_honest {s s' : Files} (h : ReflTransGen Use s s') : s'.honest = s.honest := by
  induction h with
  | refl => rfl
  | tail _ hstep ih => exact hstep.honest.trans ih

theorem ThroughHandles.spec {α : Type} {x : FileM α} (h : ThroughHandles x) : Spec Good x fun _ => Good := by
  intro s hs
  have h := h s
  rcases hx : x s with ⟨a, s'⟩ | ⟨e, s'⟩
  · rw [hx] at h
    exact fun hh => (hs (uses_honest h ▸ hh)).uses h
  · rw [hx] at h
    rcases h with h | h
    · exact .inl h
    · exact .inr fun hh => (hs (uses_honest h ▸ hh)).uses h

theorem keeps_ofExcept {α : Type} (x : Except DbError α) : Keeps (ofExcept x) := by
  cases x with
  | ok a => exact .pure a
  | error e => exact .throw e

theorem keeps_getTable (tabName : String) : Keeps (getTable tabName) := by
  refine .of_state ?_
  intro s
  unfold getTable
  split
  next tab _ => exact ⟨_, rfl, .pure tab⟩
  next => exact ⟨_, rfl, .throw _⟩

theorem keeps_tableHandle (tabName : String) : Keeps (tableHandle tabName) := by
  refine .of_state ?_
  intro s
  unfold tableHandle
  split
  next fd _ => exact ⟨_, rfl, .pure fd⟩
  next => exact ⟨_, rfl, .throw _⟩

theorem keeps_setTable (tabName : String) (tab : Catalog.TabMeta) : Keeps (setTable tabName tab) := .modify fun _ => rfl

theorem keeps_closeIndex (os : Os) (fd : ℤ) : Keeps (call (IxManager.closeIndex os fd)) := .call (spec_closeHandle os fd)

theorem keeps_closeFile (os : Os) (fd : ℤ) : Keeps (call (RmManager.closeFile os fd)) := .call (spec_closeHandle os fd)

theorem keeps_createTable (osCreate osOpen : Os) {tabName : String} (colDefs : List Catalog.ColDef)
    (hname : ¬ IsIndexName tabName) : Keeps (createTable osCreate osOpen tabName colDefs) := by
  refine .of_state ?_
  intro s
  unfold createTable
  split
  · exact ⟨_, rfl, .throw _⟩
  · exact ⟨_, rfl, (Keeps.call (RmManager.spec_createFile osCreate _ hname)).bind fun _ => (keeps_setTable _ _).bind fun _ =>
      (Keeps.call (RmManager.spec_openFile osOpen hname)).bind fun fd => .modify fun _ => rfl⟩

theorem keeps_load {acc : Access} (hacc : acc.Ok) (tabName : String) (colNames : List String)
    (cols : List Catalog.ColMeta) (tableFd fd : ℤ) : ∀ rids, Keeps (load acc tabName colNames cols tableFd fd rids)
  | [] => .pure ()
  | rid :: rids => by
    refine (Keeps.call (hacc.getRecord tableFd rid).spec).bind fun record => (keeps_ofExcept _).bind fun key =>
      (Keeps.call (hacc.getValue fd key).spec).bind fun found => ?_
    split
    · exact .throw _
    · exact (Keeps.call (hacc.insertEntry fd key rid).spec).bind fun _ =>
        (Keeps.call (hacc.next tableFd).spec).bind fun _ => keeps_load hacc tabName colNames cols tableFd fd rids

theorem keeps_createIndex (os : IndexOs) {acc : Access} (hacc : acc.Ok) (tabName : String) (colNames : List String) :
    Keeps (createIndex os acc tabName colNames) := by
  refine (keeps_getTable tabName).bind ?_
  intro tab
  split
  · exact .throw _
  · refine (keeps_ofExcept _).bind fun cols => (Keeps.call (IxManager.spec_createIndex os.create _ cols)).bind fun _ =>
      (Keeps.call (IxManager.spec_openIndex os.opens (isIndexName_getIndexName _ _))).bind fun fd => Keeps.bind ?_ fun _ =>
        (keeps_setTable _ _).bind fun _ => .modify fun _ => rfl
    refine .tryCatch ((keeps_tableHandle tabName).bind fun tableFd => keeps_load hacc _ _ _ _ _ _) ?_ rfl
    intro e he
    rw [if_neg he]
    exact (keeps_closeIndex os.close fd).bind fun _ => (Keeps.call (spec_destroyFile os.destroy _)).bind fun _ => .throw e

theorem keeps_closeIfOpen (os : Os) (ixName : String) : Keeps (closeIfOpen os ixName) := by
  refine .of_state ?_
  intro s
  unfold closeIfOpen
  split
  next fd _ => exact ⟨_, rfl, (keeps_closeIndex os fd).bind fun _ => .modify fun _ => rfl⟩
  next => exact ⟨_, rfl, .pure ()⟩

theorem keeps_dropIndex (osClose osDestroy : Os) (tabName : String) (colNames : List String) :
    Keeps (dropIndex osClose osDestroy tabName colNames) := by
  refine (keeps_getTable tabName).bind ?_
  intro tab
  split
  · exact .throw _
  · exact (keeps_closeIfOpen osClose _).bind fun _ => (Keeps.call (spec_destroyFile osDestroy _)).bind fun _ =>
      keeps_setTable _ _

theorem keeps_dropIndexes (os : ℕ → Os × Os) (tabName : String) : ∀ n, Keeps (dropIndexes os tabName n)
  | 0 => .pure ()
  | n + 1 => by
    refine (keeps_getTable tabName).bind ?_
    intro tab
    split
    · exact .pure ()
    · exact (keeps_dropIndex _ _ _ _).bind fun _ => keeps_dropIndexes os tabName n

theorem keeps_dropTable (os : ℕ → Os × Os) (osClose osDestroy : Os) (tabName : String) :
    Keeps (dropTable os osClose osDestroy tabName) :=
  (keeps_getTable tabName).bind fun _ => (keeps_dropIndexes os tabName _).bind fun _ => (keeps_tableHandle tabName).bind fun fd =>
    (keeps_closeFile osClose fd).bind fun _ => .modify_bind (fun _ => rfl) fun _ =>
      (Keeps.call (spec_destroyFile osDestroy tabName)).bind fun _ => .modify fun _ => rfl

theorem keeps_openIndexes (os : String → Os) (tabName : String) : ∀ indexes, Keeps (openIndexes os tabName indexes)
  | [] => .pure ()
  | _ :: indexes => (Keeps.call (IxManager.spec_openIndex _ (isIndexName_getIndexName _ _))).bind fun _ =>
      .modify_bind (fun _ => rfl) fun _ => keeps_openIndexes os tabName indexes

theorem keeps_openTables (os : String → Os) : ∀ tabs : List Catalog.TabMeta, (∀ tab ∈ tabs, ¬ IsIndexName tab.name) →
    Keeps (openTables os tabs)
  | [], _ => .pure ()
  | tab :: tabs, h => (Keeps.call (RmManager.spec_openFile _ (h tab List.mem_cons_self))).bind fun _ =>
      .modify_bind (fun _ => rfl) fun _ => (keeps_openIndexes os tab.name _).bind fun _ =>
        keeps_openTables os tabs fun t ht => h t (List.mem_cons_of_mem tab ht)

theorem keeps_openDb (os : String → Os) {db : Catalog.DbMeta} (h : ∀ entry ∈ db.tabs.pairs, ¬ IsIndexName entry.2.name) :
    Keeps (openDb os db) := by
  refine .modify_bind (fun _ => rfl) fun _ => keeps_openTables os _ ?_
  intro tab htab
  obtain ⟨entry, hentry, rfl⟩ := List.mem_map.mp htab
  exact h entry hentry

theorem keeps_closeAll {close : ℤ → FileM Unit} (h : ∀ fd, Keeps (call (close fd))) : ∀ fds, Keeps (closeAll close fds)
  | [] => .pure ()
  | fd :: fds => (h fd).bind fun _ => keeps_closeAll h fds

theorem keeps_closeDb (os : ℤ → Os) (indexFds tableFds : List ℤ) : Keeps (closeDb os indexFds tableFds) :=
  (keeps_closeAll (fun fd => keeps_closeIndex (os fd) fd) indexFds).bind fun _ => .modify_bind (fun _ => rfl) fun _ =>
    (keeps_closeAll (fun fd => keeps_closeFile (os fd) fd) tableFds).bind fun _ => .modify fun _ => rfl

theorem keeps_rebuildIndex (os : IndexOs) (osReopen osReclose : Os) {insertAll : ℤ → ℤ → FileM Unit}
    (hinsert : ∀ tableFd fd, ThroughHandles (insertAll tableFd fd)) (tabName : String) (index : Catalog.IndexMeta) :
    Keeps (rebuildIndex os osReopen osReclose insertAll tabName index) := by
  have hdestroy : ∀ ixName, Spec Good (destroyIfExists os.destroy ixName) fun _ => Good := fun ixName s hs => by
    unfold destroyIfExists
    split
    · exact spec_destroyFile os.destroy ixName s hs
    · exact hs
  exact (keeps_closeIfOpen os.close _).bind fun _ => (Keeps.call (hdestroy _)).bind fun _ =>
    (Keeps.call (IxManager.spec_createIndex os.create _ _)).bind fun _ =>
      (Keeps.call (IxManager.spec_openIndex os.opens (isIndexName_getIndexName _ _))).bind fun fd =>
        .modify_bind (fun _ => rfl) fun _ => (keeps_tableHandle tabName).bind fun tableFd =>
          (Keeps.call (hinsert tableFd fd).spec).bind fun _ => (keeps_closeIndex osReclose fd).bind fun _ =>
            .modify_bind (fun _ => rfl) fun _ =>
              (Keeps.call (IxManager.spec_openIndex osReopen (isIndexName_getIndexName _ _))).bind fun _ => .modify fun _ => rfl

/-! ### Runs -/

/-- A program has ended in the state `s'`, and the process goes on. -/
def Reaches {α : Type} (out : EStateM.Result DbError Sm α) (s' : Sm) : Prop :=
  EndsIn (fun _ t => t = s') (fun e t => e ≠ .died ∧ t = s') out

/-- What can happen: a call of `RmManager`, `IxManager` or `SmManager`, which may throw, or a use of a handle. The names
of tables are identifiers, so a table's file is not named as an index. -/
inductive SmStep (s : Sm) : Sm → Prop where
  /-- `RmManager::create_file`. -/
  | createFile {os : Os} {filename : String} {recordSize : Int32} {s' : Sm} : ¬ IsIndexName filename →
      Reaches (call (RmManager.createFile os filename recordSize) s) s' → SmStep s s'
  /-- `RmManager::open_file`. -/
  | openFile {os : Os} {filename : String} {s' : Sm} : ¬ IsIndexName filename →
      Reaches (call (RmManager.openFile os filename) s) s' → SmStep s s'
  /-- `RmManager::close_file`. -/
  | closeFile {os : Os} {fd : ℤ} {s' : Sm} : Reaches (call (RmManager.closeFile os fd) s) s' → SmStep s s'
  /-- `RmManager::destroy_file` or `IxManager::destroy_index`. -/
  | destroyFile {os : Os} {path : String} {s' : Sm} : Reaches (call (DiskManager.destroyFile os path) s) s' → SmStep s s'
  /-- `IxManager::create_index`. -/
  | createIndexFile {os : Os} {filename : String} {cols : List Catalog.ColMeta} {s' : Sm} :
      Reaches (call (IxManager.createIndex os (IxManager.getIndexName filename (cols.map (·.name))) cols) s) s' → SmStep s s'
  /-- `IxManager::open_index`. -/
  | openIndexFile {os : Os} {filename : String} {colNames : List String} {s' : Sm} :
      Reaches (call (IxManager.openIndex os (IxManager.getIndexName filename colNames)) s) s' → SmStep s s'
  /-- `IxManager::close_index`. -/
  | closeIndexFile {os : Os} {fd : ℤ} {s' : Sm} : Reaches (call (IxManager.closeIndex os fd) s) s' → SmStep s s'
  /-- A use of an open handle. -/
  | use {files : Files} : Use s.files files → SmStep s { s with files := files }
  /-- `SmManager::create_table`. -/
  | createTable {osCreate osOpen : Os} {tabName : String} {colDefs : List Catalog.ColDef} {s' : Sm} : ¬ IsIndexName tabName →
      Reaches (createTable osCreate osOpen tabName colDefs s) s' → SmStep s s'
  /-- `SmManager::drop_table`. -/
  | dropTable {os : ℕ → Os × Os} {osClose osDestroy : Os} {tabName : String} {s' : Sm} :
      Reaches (dropTable os osClose osDestroy tabName s) s' → SmStep s s'
  /-- `SmManager::create_index`. -/
  | createIndex {os : IndexOs} {acc : Access} {tabName : String} {colNames : List String} {s' : Sm} : acc.Ok →
      Reaches (createIndex os acc tabName colNames s) s' → SmStep s s'
  /-- `SmManager::drop_index`. -/
  | dropIndex {osClose osDestroy : Os} {tabName : String} {colNames : List String} {s' : Sm} :
      Reaches (dropIndex osClose osDestroy tabName colNames s) s' → SmStep s s'
  /-- `SmManager::open_db`. -/
  | openDb {os : String → Os} {db : Catalog.DbMeta} {s' : Sm} : (∀ entry ∈ db.tabs.pairs, ¬ IsIndexName entry.2.name) →
      Reaches (openDb os db s) s' → SmStep s s'
  /-- `SmManager::close_db`. -/
  | closeDb {os : ℤ → Os} {indexFds tableFds : List ℤ} {s' : Sm} : Reaches (closeDb os indexFds tableFds s) s' → SmStep s s'
  /-- `RecoveryManager::rebuild_indexes`. -/
  | rebuildIndex {os : IndexOs} {osReopen osReclose : Os} {insertAll : ℤ → ℤ → FileM Unit} {tabName : String}
      {index : Catalog.IndexMeta} {s' : Sm} : (∀ tableFd fd, ThroughHandles (insertAll tableFd fd)) →
      Reaches (rebuildIndex os osReopen osReclose insertAll tabName index s) s' → SmStep s s'

/-- The start: nothing is open, and the pool is empty. Index files of an earlier run have been closed. -/
structure Start (s : Sm) : Prop where
  pool : ∀ pid, s.files.bpm.pageTable pid = none
  frames : ∀ frame, (s.files.bpm.pages frame).id.pageNo = INVALID_PAGE_ID
  path2fd : ∀ path, s.files.path2fd path = none
  fd2path : ∀ fd, s.files.fd2path fd = none
  opened : ∀ fd, s.files.opened fd = none
  handles : ∀ fd, s.files.handles fd = none
  inj : ∀ path path' file, s.files.dir path = some file → s.files.dir path' = some file → path = path'
  fresh : ∀ path file, s.files.dir path = some file → file < s.files.nextFile
  closed : ∀ path file, s.files.dir path = some file → IsIndexName path → Counted (s.files.pages file)

section Runs

variable {s s' : Sm}

theorem Start.good (h : Start s) : Good s.files where
  table pid frame hf := by
    rw [h.pool] at hf
    cases hf
  ids frame hf := absurd (h.frames frame) hf
  resident pid hpid := absurd (h.pool pid) hpid
  handle fd x hx := by
    rw [h.handles] at hx
    cases hx
  index fd x hdr hx := by
    rw [h.handles] at hx
    cases hx
  tableName fd x hdr path hx := by
    rw [h.handles] at hx
    cases hx
  paths fd path := by rw [h.fd2path, h.path2fd]; simp
  opened fd := by rw [h.opened, h.fd2path]; rfl
  inDir fd path hp := by
    rw [h.fd2path] at hp
    cases hp
  inj := h.inj
  fresh := h.fresh
  closed path file hp _ hname := h.closed path file hp hname

theorem Keeps.reaches {α : Type} {x : SmM α} (hx : Keeps x) (h : InOrder s) (hreach : Reaches (x s) s') : InOrder s' := by
  have hx := hx s h
  rcases hout : x s with ⟨a, t⟩ | ⟨e, t⟩
  · rw [hout] at hx hreach
    have heq : t = s' := hreach
    exact heq ▸ hx
  · rw [hout] at hx hreach
    obtain ⟨he, rfl⟩ : e ≠ .died ∧ t = s' := hreach
    exact Or.resolve_left hx he

/-- **Every step keeps the files in order.** -/
theorem SmStep.inOrder (hstep : SmStep s s') (h : InOrder s) : InOrder s' := by
  cases hstep with
  | createFile hname hr => exact (Keeps.call (RmManager.spec_createFile _ _ hname)).reaches h hr
  | openFile hname hr => exact (Keeps.call (RmManager.spec_openFile _ hname)).reaches h hr
  | closeFile hr => exact (keeps_closeFile _ _).reaches h hr
  | destroyFile hr => exact (Keeps.call (spec_destroyFile _ _)).reaches h hr
  | createIndexFile hr => exact (Keeps.call (IxManager.spec_createIndex _ _ _)).reaches h hr
  | openIndexFile hr => exact (Keeps.call (IxManager.spec_openIndex _ (isIndexName_getIndexName _ _))).reaches h hr
  | closeIndexFile hr => exact (keeps_closeIndex _ _).reaches h hr
  | use huse => exact fun hh => (h (huse.honest ▸ hh)).use huse
  | createTable hname hr => exact (keeps_createTable _ _ _ hname).reaches h hr
  | dropTable hr => exact (keeps_dropTable _ _ _ _).reaches h hr
  | createIndex hacc hr => exact (keeps_createIndex _ hacc _ _).reaches h hr
  | dropIndex hr => exact (keeps_dropIndex _ _ _ _).reaches h hr
  | openDb hnames hr => exact (keeps_openDb _ hnames).reaches h hr
  | closeDb hr => exact (keeps_closeDb _ _ _).reaches h hr
  | rebuildIndex hinsert hr => exact (keeps_rebuildIndex _ _ _ hinsert _ _).reaches h hr

theorem run_inOrder (hstart : Start s) (hrun : ReflTransGen SmStep s s') : InOrder s' := by
  induction hrun with
  | refl => exact fun _ => hstart.good
  | tail _ hstep ih => exact hstep.inOrder ih

/-- The pages in the pool belong to the open files, and each file numbers its own. -/
structure PagesBelong (f : Files) : Prop where
  /-- A page in the pool belongs to the file that is open under its descriptor. -/
  resident : ∀ pid, f.bpm.pageTable pid ≠ none →
    ∃ path file, f.fd2path pid.fd = some path ∧ f.dir path = some file ∧ f.owner pid = some file
  /-- A page that is fetched through a handle belongs to the handle's file. -/
  fetched : ∀ fd h n io frame, f.handles fd = some h → (f.bpm.fetchPageIo io ⟨fd, n⟩).2 = .returned (some frame) →
    f.opened fd = some h.file ∧ (f.bring (f.bpm.fetchPageIo io ⟨fd, n⟩).1 ⟨fd, n⟩ h.file).owner ⟨fd, n⟩ = some h.file
  /-- The numbers allocated through a handle start at the page count in its header. -/
  allocated : ∀ fd h, f.handles fd = some h → h.allocated = (List.range h.allocated.length).map fun i : ℕ => h.start + i
  /-- And so does the next one. -/
  next : ∀ fd h, f.handles fd = some h → f.bpm.fd2pageno fd = h.start + h.allocated.length

/-- **Descriptors that are used again**: whatever files are created, opened, used, closed and destroyed, every page in
the pool belongs to the file that is open under its descriptor. -/
theorem pages_belong (hstart : Start s) (hrun : ReflTransGen SmStep s s') (hhonest : s'.files.honest) : PagesBelong s'.files := by
  have hgood := run_inOrder hstart hrun hhonest
  refine ⟨?_, ?_, fun fd h hh => (hgood.handle fd h hh).allocated, fun fd h hh => (hgood.handle fd h hh).count⟩
  · intro pid hpid
    obtain ⟨hopen, howner, -⟩ := hgood.resident pid hpid
    rw [hgood.opened] at hopen howner
    rcases hpath : s'.files.fd2path pid.fd with _ | path
    · rw [hpath] at hopen
      exact absurd rfl hopen
    · rw [hpath] at howner
      obtain ⟨file, hfile⟩ := Option.ne_none_iff_exists'.mp (hgood.inDir pid.fd path hpath)
      exact ⟨path, file, rfl, hfile, howner.trans hfile⟩
  · intro fd h n io frame hh _
    have hfile := (hgood.handle fd h hh).file
    refine ⟨hfile, ?_⟩
    unfold Files.bring
    by_cases habsent : s'.files.bpm.pageTable ⟨fd, n⟩ = none
    · simp only [if_pos habsent, Function.update_self]
    · simp only [if_neg habsent]
      exact (hgood.resident _ habsent).2.1.trans hfile

end Runs

/-! ### A run -/

/-- The state in which a program has ended. -/
def endState {ε σ α : Type} : EStateM.Result ε σ α → σ
  | .ok _ s => s
  | .error _ s => s

/-- Answers without a failure: a descriptor and the size of the file. -/
def Os.plain (fd : Option (ℤ × ℤ)) (frames : List ℕ) : Os :=
  ⟨false, false, false, fd, false, fun _ => none, false, .ok, frames⟩

/-- No file, and a pool of one frame. -/
def emptySm : Sm where
  files :=
    { bpm := .create 1 (fun _ => none) fun _ => 0
      dir := fun _ => none
      pages := fun _ _ => none
      nextFile := 0
      opened := fun _ => none
      path2fd := fun _ => none
      fd2path := fun _ => none
      handles := fun _ => none
      owner := fun _ => none
      honest := True }
  db := ⟨"db", .empty⟩
  fhs := fun _ => none
  ihs := fun _ => none

theorem emptySm_start : Start emptySm :=
  ⟨fun _ => rfl, fun _ => rfl, fun _ => rfl, fun _ => rfl, fun _ => rfl, fun _ => rfl, fun _ _ _ h => (by cases h),
    fun _ _ h => (by cases h), fun _ _ h => (by cases h)⟩

/-- Has a program returned? -/
def returned {ε σ α : Type} : EStateM.Result ε σ α → Bool
  | .ok _ _ => true
  | .error _ _ => false

theorem reaches_endState {α : Type} {out : EStateM.Result DbError Sm α} (h : returned out = true) : Reaches out (endState out) := by
  cases out with
  | ok => rfl
  | error => cases h

/-- A page is allocated through the handle of a table. -/
def allocatePage (s : Sm) (fd : ℤ) : Sm :=
  match s.files.handles fd with
  | some ⟨.table hdr, file, start, allocated⟩ =>
    { s with files := s.files.createNewPageHandle .ok fd ⟨.table hdr, file, start, allocated⟩ hdr }
  | _ => s

theorem run_allocatePage (s : Sm) (fd : ℤ) : ReflTransGen SmStep s (allocatePage s fd) := by
  unfold allocatePage
  split
  next hx => exact .single (.use (.createNewPageHandle hx rfl))
  next => exact .refl

/-- A table file is created, opened under the same descriptor, and gets a page. -/
def sampleFiles : Sm × Sm :=
  let s₁ := endState (call (RmManager.createFile (.plain (some (3, 0)) []) "t" 4) emptySm)
  (s₁, endState (call (RmManager.openFile (.plain (some (3, 20)) []) "t") s₁))

/-- The size of a file with a header. -/
theorem sizeOf_header (bytes : Bytes) (h : bytes.length = 20) : SizeOf (Index.writeBytes blank 0 bytes) 20 := by
  refine ⟨by decide, ?_, ?_⟩
  · intro n hn
    by_cases heq : n = 0
    · subst heq
      decide
    · rw [Index.writeBytes_other (by rw [h]; decide) _ heq] at hn
      exact absurd rfl hn
  · intro _
    unfold Index.writeBytes
    rw [if_pos ⟨by decide, by rw [h]; decide⟩]
    exact Option.some_ne_none _

theorem pages_belong_sample : (allocatePage sampleFiles.2 3).files.bpm.pageTable ⟨3, 1⟩ = some 0 ∧
    PagesBelong (allocatePage sampleFiles.2 3).files := by
  have hname : ¬ IsIndexName "t" := by
    rintro ⟨base, hbase⟩
    have h := congrArg String.length hbase
    rw [String.length_append] at h
    have h4 : ".idx".length = 4 := rfl
    have h1 : "t".length = 1 := rfl
    omega
  have hcreate : Reaches (call (RmManager.createFile (.plain (some (3, 0)) []) "t" 4) emptySm) sampleFiles.1 :=
    reaches_endState rfl
  have hopen : Reaches (call (RmManager.openFile (.plain (some (3, 20)) []) "t") sampleFiles.1) sampleFiles.2 :=
    reaches_endState rfl
  have hrun := (ReflTransGen.single (SmStep.createFile hname hcreate)).tail (.openFile hname hopen)
  refine ⟨by decide +kernel, pages_belong emptySm_start (hrun.trans (run_allocatePage _ 3)) ?_⟩
  have hblank : SizeOf blank 0 := ⟨le_refl _, fun n hn => absurd rfl hn, fun h => absurd h (lt_irrefl _)⟩
  exact ⟨⟨trivial, by decide, rfl, hblank⟩, by decide, rfl, sizeOf_header _ (Record.RmFileHdr.length_bytes (RmManager.fileHdr 4))⟩

end Rmdb.Fs
