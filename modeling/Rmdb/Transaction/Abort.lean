import Rmdb.Recovery.Log
import Rmdb.Transaction.Agreement
import Rmdb.Transaction.LockManager

/-!
# How abort ends

`TransactionManager` with the tables, the lock manager, the write sets and the log, while
transactions and sessions that create and drop tables and indexes take steps in any order;
DDL asks for no lock. `abort` pops the write set from its end and looks up the table of each
write by its name. Only then it unlocks what the transaction holds and appends its record.

An index that is dropped does no harm, nor does one that is made. A table that is dropped
does: the lookup throws, and the transaction keeps its locks. `abort_ends`: in every run in
which no table of a write set is dropped, every transaction can be aborted at any time, and
`abort` leaves nothing of it behind.

The write sets have the order in which the writes were made.
-/

namespace Rmdb.Transaction

open Lib Record Recovery Execution Execution.Table
open Function (update)

/-- The rollback of the writes finds what it needs in every table. -/
def DbCanRollBack (ws : List WriteRecord) (db : Db) : Prop :=
  ∀ name t, db name = some t → CanRollBack t.fh.numRecordsPerPage (writesTo name ws) t.fh.records

/-- The tables are in order, under their names. -/
def DbOk (db : Db) : Prop := ∀ name t, db name = some t → t.Ok ∧ t.tab.name = name

/-- A table after one has been changed is this one or another. -/
theorem update_cases {db : Db} {name name' : String} {t t' : Table} (h : update db name (some t) name' = some t') :
    (name' = name ∧ t' = t) ∨ (name' ≠ name ∧ db name' = some t') := by
  by_cases hname : name' = name
  · rw [hname, Function.update_self] at h
    exact Or.inl ⟨hname, (Option.some.inj h).symm⟩
  · rw [Function.update_of_ne hname] at h
    exact Or.inr ⟨hname, h⟩

theorem DbOk.update {db : Db} (h : DbOk db) {name : String} {t : Table} (ht : t.Ok ∧ t.tab.name = name) :
    DbOk (update db name (some t)) := by
  intro name' t' hdb
  rcases update_cases hdb with ⟨rfl, rfl⟩ | ⟨-, hdb⟩
  · exact ht
  · exact h name' t' hdb

/-- **The loop of `abort`** succeeds if every write finds its table, and leaves the other tables alone. -/
theorem forEach_undoWrite_ok : ∀ {ws : List WriteRecord} {db : Db}, DbOk db → DbCanRollBack ws db →
    (∀ w ∈ ws, (db w.tabName).isSome) →
    ∃ db', forEach undoWrite ws db = (db', none) ∧ DbOk db' ∧ (∀ name, (db' name).isSome = (db name).isSome) ∧
      ∀ name, (∀ w ∈ ws, w.tabName ≠ name) → db' name = db name := by
  intro ws
  induction ws with
  | nil => exact fun h _ _ => ⟨_, rfl, h, fun _ => rfl, fun _ _ => rfl⟩
  | cons w ws ih =>
    intro db h hback hthere
    obtain ⟨t, hdb⟩ := Option.isSome_iff_exists.mp (hthere w List.mem_cons_self)
    obtain ⟨hok, hname⟩ := h w.tabName t hdb
    have hw := hback w.tabName t hdb
    rw [writesTo, List.filter_cons_of_pos (by simp)] at hw
    obtain ⟨t₁, hundo, h₁⟩ := undo_spec hok hw.1
    have hround : undoWrite w db = (update db w.tabName (some t₁), none) := by simp only [undoWrite, hdb, hundo]
    have hback₁ : DbCanRollBack ws (update db w.tabName (some t₁)) := by
      intro name t' hdb'
      rcases update_cases hdb' with ⟨rfl, rfl⟩ | ⟨hn, hdb'⟩
      · rw [h₁.per, h₁.records]
        exact hw.2
      · have hrest := hback name t' hdb'
        rwa [writesTo, List.filter_cons_of_neg (by simpa using Ne.symm hn)] at hrest
    have hsome : ∀ name, (update db w.tabName (some t₁) name).isSome = (db name).isSome := by
      intro name
      by_cases hn : name = w.tabName
      · rw [hn, Function.update_self, hdb]
        rfl
      · rw [Function.update_of_ne hn]
    obtain ⟨db', hrun, hok', hsome', hother⟩ := ih (h.update ⟨h₁.ok, by rw [h₁.tab, hname]⟩) hback₁ fun v hv => by
      rw [hsome]
      exact hthere v (List.mem_cons_of_mem _ hv)
    refine ⟨db', (forEach_cons_ok hround).trans hrun, hok', fun name => (hsome' name).trans (hsome name), ?_⟩
    intro name hne
    rw [hother name fun v hv => hne v (List.mem_cons_of_mem _ hv),
      Function.update_of_ne (hne w List.mem_cons_self).symm]

/-! ### Unlocking -/

/-- The loop over the locks, in `commit` and in `abort`. -/
def unlockAll (t : TxnId) (locks : List LockDataId) (lm : LockManager) : LockManager :=
  locks.foldl (fun lm lock => (lm.unlock t lock).1) lm

section Unlocking

variable {lm : LockManager} {t : TxnId}

/-- Where `unlock` returns `false` there is no lock. -/
theorem not_holds_of_unlock {lm' : LockManager} {item : LockDataId} (hun : lm.unlock t item = (lm', false)) :
    ¬ Holds (lm.requests item) t := by
  rintro ⟨own, hown, hid⟩
  rw [LockManager.unlock] at hun
  split at hun
  · rename_i hnone
    rw [LockManager.requests, hnone] at hown
    cases hown
  · rename_i q hq
    rw [LockManager.requests, hq] at hown
    have hany : (q.requestQueue.any fun r => r.txnId = t) = true := List.any_eq_true.mpr ⟨own, hown, by simpa using hid⟩
    rw [if_pos hany] at hun
    cases (Prod.mk.inj hun).2

/-- `unlock` takes the item out of the lock set, if it is there. -/
theorem lockSet_unlock (h : lm.Ok) (item : LockDataId) :
    (lm.unlock t item).1.lockSet = update lm.lockSet t ((lm.lockSet t).erase item) := by
  rcases hun : lm.unlock t item with ⟨lm', b⟩
  rcases LockManager.unlock_cases hun with ⟨rfl, rfl⟩ | ⟨-, -, -, -, hsets, -⟩
  · rw [Finset.erase_eq_of_notMem fun hmem => not_holds_of_unlock hun ((h.mirrors ..).mp hmem), Function.update_eq_self]
  · exact hsets

/-- What another transaction holds exclusively it goes on to hold. -/
theorem holdsX_unlock_other {t' : TxnId} {item item' : LockDataId} (hne : t' ≠ t)
    (hx : HoldsX (lm.requests item') t') : HoldsX ((lm.unlock t item).1.requests item') t' := by
  rcases hun : lm.unlock t item with ⟨lm', b⟩
  rcases LockManager.unlock_cases hun with ⟨-, rfl⟩ | ⟨-, -, -, hrequests, -⟩
  · exact hx
  · simp only [hrequests]
    split
    · rename_i hi
      subst hi
      exact (holdsX_unlock_of_ne hne).mpr hx
    · exact hx

/-- **All locks** are given back, and the other transactions keep theirs. -/
theorem unlockAll_spec (h : lm.Ok) (t : TxnId) (locks : List LockDataId) :
    (unlockAll t locks lm).Ok ∧ (∀ item, item ∈ (unlockAll t locks lm).lockSet t ↔ item ∈ lm.lockSet t ∧ item ∉ locks) ∧
      ∀ t' item, t' ≠ t → HoldsX (lm.requests item) t' → HoldsX ((unlockAll t locks lm).requests item) t' := by
  induction locks generalizing lm with
  | nil => exact ⟨h, fun item => by simp [unlockAll], fun _ _ _ hx => hx⟩
  | cons lock locks ih =>
    have h₁ : (lm.unlock t lock).1.Ok := h.unlock rfl
    obtain ⟨hok, hset, hkeep⟩ := ih h₁
    refine ⟨hok, ?_, fun t' item hne hx => hkeep t' item hne (holdsX_unlock_other hne hx)⟩
    intro item
    change item ∈ (unlockAll t locks (lm.unlock t lock).1).lockSet t ↔ _
    rw [hset, lockSet_unlock h, Function.update_self, Finset.mem_erase, List.mem_cons, not_or]
    exact ⟨fun ⟨⟨hne, hin⟩, hnot⟩ => ⟨hin, hne, hnot⟩, fun ⟨hin, hne, hnot⟩ => ⟨⟨hne, hin⟩, hnot⟩⟩

end Unlocking

/-! ### The transaction manager -/

/-- `TransactionManager`, with what it works on. -/
structure TransactionManager where
  /-- `db_`, `fhs_` and `ihs_` of the `SmManager`. -/
  db : Db
  /-- `GetFd` of the tables. -/
  fds : String → ℤ
  /-- `lock_manager_`, with the states and the lock sets of the transactions. -/
  lm : LockManager
  /-- `write_set_` of the transactions. -/
  writeSet : TxnId → List WriteRecord
  /-- The log. -/
  log : List LogRecord

namespace TransactionManager

/-- `begin`. -/
def beginTxn (s : TransactionManager) (t : TxnId) : TransactionManager :=
  { s with lm.state := update s.lm.state t .growing, log := s.log ++ [.beginTxn t] }

/-- `commit`, where the lock set is given as the vector that is made of it. -/
def commit (s : TransactionManager) (t : TxnId) (locks : List LockDataId) : TransactionManager :=
  let lm := unlockAll t locks s.lm
  { s with
    lm := { lm with state := update lm.state t .committed }
    writeSet := update s.writeSet t []
    log := s.log ++ [.commit t] }

/-- A round of the loop of `abort`: the write is popped before it is undone. -/
def popWrite (w : WriteRecord) (s : Db × List WriteRecord) : (Db × List WriteRecord) × Option RMDBError :=
  let (db, e) := undoWrite w s.1
  ((db, s.2.dropLast), e)

/-- `abort`, where the lock set is given as the vector that is made of it. An exception of the loop ends it. -/
def abort (s : TransactionManager) (t : TxnId) (locks : List LockDataId) : TransactionManager × Option RMDBError :=
  let lm := { s.lm with state := update s.lm.state t .aborted }
  match forEach popWrite (s.writeSet t).reverse (s.db, s.writeSet t) with
  | ((db, ws), some e) => ({ s with db := db, lm := lm, writeSet := update s.writeSet t ws }, some e)
  | ((db, ws), none) =>
    ({ s with
        db := db
        lm := unlockAll t locks lm
        writeSet := update s.writeSet t ws
        log := s.log ++ [.abort t] }, none)

/-- The vector has what is in the lock set. -/
def Listed (s : TransactionManager) (t : TxnId) (locks : List LockDataId) : Prop := ∀ item, item ∈ locks ↔ item ∈ s.lm.lockSet t

/-- What a step was. -/
inductive Event where
  /-- `begin`. -/
  | beginTxn (t : TxnId)
  /-- `request_lock`. -/
  | request (t : TxnId) (item : LockDataId) (mode : LockMode)
  /-- A statement, or a part of one. -/
  | stmt (t : TxnId) (name : String) (stmt : Stmt)
  /-- `commit`. -/
  | commit (t : TxnId)
  /-- `abort`. -/
  | abort (t : TxnId)
  /-- `CREATE TABLE`. -/
  | createTable (name : String)
  /-- `DROP TABLE`. -/
  | dropTable (name : String)
  /-- `CREATE INDEX`. -/
  | createIndex (name : String) (colNames : List String)
  /-- `DROP INDEX`. -/
  | dropIndex (name : String) (colNames : List String)

/-- The steps of transactions and sessions. What throws without a change is no step. -/
inductive Step (s : TransactionManager) : Event → TransactionManager → Prop where
  /-- `begin`, of a new transaction. -/
  | beginTxn {t : TxnId} : s.lm.state t = .default → Step s (.beginTxn t) (s.beginTxn t)
  /-- A lock is granted or refused. -/
  | request (t : TxnId) (item : LockDataId) (mode : LockMode) :
      Step s (.request t item mode) { s with lm := (s.lm.request t item mode).1 }
  /-- A statement on a table that the transaction has locked succeeds, or fails somewhere. The log records of its rows are
  left open. -/
  | stmt {t : TxnId} {name : String} {tab : Table} {stmt : Stmt} {records : List LogRecord} : s.db name = some tab →
      HoldsX (s.lm.requests (.table (s.fds name))) t → (∀ r ∈ records, r.change.isSome) →
      Step s (.stmt t name stmt) { s with
        db := update s.db name (some (stmt.exec ⟨tab, s.writeSet t⟩).1.table)
        writeSet := update s.writeSet t (stmt.exec ⟨tab, s.writeSet t⟩).1.writes
        log := s.log ++ records }
  /-- `commit`. -/
  | commit {t : TxnId} {locks : List LockDataId} : s.Listed t locks → Step s (.commit t) (s.commit t locks)
  /-- `abort` returns, or throws. -/
  | abort {t : TxnId} {locks : List LockDataId} : s.Listed t locks → Step s (.abort t) (s.abort t locks).1
  /-- A table is made, in a file with any descriptor. -/
  | createTable {name : String} {cols : List ColMeta} {fh : RmFileHandle} (fd : ℤ) : s.db name = none →
      RmFileHandle.createFile ((cols.map (·.len)).sum : ℕ) = .ok fh →
      Step s (.createTable name) { s with
        db := update s.db name (some (.create ⟨name, cols, []⟩ fh 3))
        fds := update s.fds name fd }
  /-- A table is dropped. -/
  | dropTable {name : String} {tab : Table} : s.db name = some tab →
      Step s (.dropTable name) { s with db := update s.db name none }
  /-- An index is made, or `create_index` throws. -/
  | createIndex {name : String} {tab : Table} (opening : Opening) (colNames : List String) : s.db name = some tab →
      Step s (.createIndex name colNames) { s with db := update s.db name (some (tab.createIndex opening colNames).1) }
  /-- An index is dropped, or `drop_index` throws. -/
  | dropIndex {name : String} {tab : Table} (colNames : List String) : s.db name = some tab →
      Step s (.dropIndex name colNames) { s with db := update s.db name (some (tab.dropIndex colNames).1) }

/-- The server has started: nobody has a lock, and nothing has been written. -/
structure Init (s : TransactionManager) : Prop where
  tables : DbOk s.db
  locks : s.lm.Initial
  writeSet : ∀ t, s.writeSet t = []

/-- The step does not drop a table of a write set. -/
def Meets (s : TransactionManager) (e : Event) : Prop :=
  ∀ name, e = .dropTable name → ∀ t, ∀ w ∈ s.writeSet t, w.tabName ≠ name

/-- **How `abort` ends**: it returns, nothing of the transaction is left, and its record has been written. -/
structure Ends (s : TransactionManager) (t : TxnId) (result : TransactionManager × Option RMDBError) : Prop where
  /-- It throws nothing. -/
  returns : result.2 = none
  /-- The write set is empty. -/
  writeSet : result.1.writeSet t = []
  /-- The lock set is empty. -/
  lockSet : result.1.lm.lockSet t = ∅
  /-- No queue of the lock table has a request of the transaction. -/
  requests : ∀ item, ¬ Holds (result.1.lm.requests item) t
  /-- One record has been written. -/
  log : result.1.log = s.log ++ [.abort t]

/-- The tables are in order; a transaction has the locks of the tables that it has written, and can be rolled back. -/
structure Inv (s : TransactionManager) : Prop where
  locks : s.lm.Ok
  tables : DbOk s.db
  there : ∀ t, ∀ w ∈ s.writeSet t, (s.db w.tabName).isSome
  holds : ∀ t, ∀ w ∈ s.writeSet t, HoldsX (s.lm.requests (.table (s.fds w.tabName))) t
  back : ∀ t, DbCanRollBack (s.writeSet t).reverse s.db

section Steps

variable {s s' : TransactionManager} {t : TxnId}

theorem Init.inv (h : s.Init) : s.Inv where
  locks := h.locks.ok
  tables := h.tables
  there t w hw := absurd hw (by simp [h.writeSet t])
  holds t w hw := absurd hw (by simp [h.writeSet t])
  back t name tab _ := by
    rw [h.writeSet t]
    trivial

/-- The pops keep up with the loop. -/
theorem forEach_popWrite {db' : Db} : ∀ {ws : List WriteRecord} {db : Db}, forEach undoWrite ws db = (db', none) →
    forEach popWrite ws (db, ws.reverse) = ((db', []), none) := by
  intro ws
  induction ws with
  | nil =>
    rintro db hrun
    cases hrun
    rfl
  | cons w ws ih =>
    intro db hrun
    rcases hw : undoWrite w db with ⟨db₁, _ | e⟩
    · rw [forEach_cons_ok hw] at hrun
      have hpop : popWrite w (db, (w :: ws).reverse) = ((db₁, ws.reverse), none) := by
        simp only [popWrite, hw, List.reverse_cons, List.dropLast_concat]
      rw [forEach_cons_ok hpop]
      exact ih hrun
    · rw [forEach_cons_error hw] at hrun
      cases hrun

/-- **One `abort`**: it ends as it should, and changes only tables that the transaction has written. -/
theorem Inv.abort_eq (h : s.Inv) (locks : List LockDataId) : ∃ db', s.abort t locks = ({ s with
      db := db'
      lm := unlockAll t locks { s.lm with state := update s.lm.state t .aborted }
      writeSet := update s.writeSet t []
      log := s.log ++ [.abort t] }, none) ∧
    DbOk db' ∧ (∀ name, (db' name).isSome = (s.db name).isSome) ∧
    ∀ name, (∀ w ∈ s.writeSet t, w.tabName ≠ name) → db' name = s.db name := by
  obtain ⟨db', hrun, hok, hsome, hother⟩ := forEach_undoWrite_ok h.tables (h.back t) fun w hw => h.there t w (List.mem_reverse.mp hw)
  have hpop := forEach_popWrite hrun
  rw [List.reverse_reverse] at hpop
  refine ⟨db', ?_, hok, hsome, fun name hne => hother name fun w hw => hne w (List.mem_reverse.mp hw)⟩
  simp only [TransactionManager.abort, hpop]

/-- The state of a transaction is no matter of the locks. -/
theorem ok_state (h : s.lm.Ok) (state : TxnId → TransactionState) : ({ s.lm with state := state } : LockManager).Ok :=
  h.of_eq rfl rfl

theorem Inv.ends (h : s.Inv) {locks : List LockDataId} (hlocks : s.Listed t locks) : Ends s t (s.abort t locks) := by
  obtain ⟨db', hrun, -⟩ := h.abort_eq (t := t) locks
  rw [hrun]
  obtain ⟨hok, hset, -⟩ := unlockAll_spec (ok_state h.locks (update s.lm.state t .aborted)) t locks
  have hempty : ∀ item, item ∉ (unlockAll t locks { s.lm with state := update s.lm.state t .aborted }).lockSet t := fun item hmem =>
    ((hset item).mp hmem).2 ((hlocks item).mpr ((hset item).mp hmem).1)
  exact ⟨rfl, Function.update_self .., Finset.eq_empty_of_forall_notMem hempty, fun item => mt (hok.mirrors t item).mpr (hempty item), rfl⟩

/-! ### What a step keeps -/

/-- A request, whatever comes of it, takes no exclusive lock away. -/
theorem holdsX_request {lm : LockManager} (h : lm.Ok) {t' : TxnId} {item item' : LockDataId} {mode : LockMode}
    (hx : HoldsX (lm.requests item') t') : HoldsX ((lm.request t item mode).1.requests item') t' := by
  rcases hreq : lm.request t item mode with ⟨lm', out⟩
  obtain ⟨-, -, ⟨-, rfl | rfl⟩ | ⟨-, -, rfl, -⟩ | ⟨-, -, queue, hqueue, rfl⟩⟩ := LockManager.request_cases hreq
  · exact hx
  · rwa [LockManager.requests_touch]
  · rwa [LockManager.requests_touch]
  · rw [LockManager.requests_update]
    split
    · rename_i hi
      subst hi
      exact hx.requestLock hqueue (h.queues item')
    · exact hx

/-- Only the transaction with the lock of a table has written it. -/
theorem Inv.only_writer (h : s.Inv) {name : String} (hx : HoldsX (s.lm.requests (.table (s.fds name))) t) {t' : TxnId} (hne : t' ≠ t) :
    ∀ w ∈ s.writeSet t', w.tabName ≠ name := by
  rintro w hw rfl
  exact hne (HoldsX.unique (h.locks.queues _) hx (h.holds t' w hw).holds)

/-- What another transaction has written a transaction has not. -/
theorem Inv.only_writer' (h : s.Inv) {t' : TxnId} (hne : t' ≠ t) : ∀ w ∈ s.writeSet t', ∀ v ∈ s.writeSet t, v.tabName ≠ w.tabName :=
  fun w hw => h.only_writer (h.holds t' w hw) hne.symm

theorem isSome_update {db : Db} (name : String) (tab : Table) {name' : String} (h : (db name').isSome) :
    (update db name (some tab) name').isSome := by
  by_cases hname : name' = name
  · rw [hname, Function.update_self]
    rfl
  · rwa [Function.update_of_ne hname]

/-- A table whose records stay. -/
theorem Inv.replace (h : s.Inv) {name : String} {tab tab' : Table} (hdb : s.db name = some tab) (hok : tab'.Ok)
    (hname : tab'.tab.name = tab.tab.name) (hfh : tab'.fh = tab.fh) : Inv { s with db := update s.db name (some tab') } where
  locks := h.locks
  tables := h.tables.update ⟨hok, hname.trans (h.tables name tab hdb).2⟩
  there t w hw := isSome_update name tab' (h.there t w hw)
  holds := h.holds
  back t name' t' hdb' := by
    rcases update_cases hdb' with ⟨rfl, rfl⟩ | ⟨-, hdb'⟩
    · rw [hfh]
      exact h.back t name' tab hdb
    · exact h.back t name' t' hdb'

/-- **A statement** keeps the invariant: its writes come first in a rollback, and lead back to the table as it was. -/
theorem Inv.stmt (h : s.Inv) {name : String} {tab : Table} (stmt : Stmt) (hdb : s.db name = some tab)
    (hx : HoldsX (s.lm.requests (.table (s.fds name))) t) (log : List LogRecord) : Inv { s with
      db := update s.db name (some (stmt.exec ⟨tab, s.writeSet t⟩).1.table)
      writeSet := update s.writeSet t (stmt.exec ⟨tab, s.writeSet t⟩).1.writes
      log := log } := by
  obtain ⟨hok, hname⟩ := h.tables name tab hdb
  have hadv := exec_advance (s := ⟨tab, s.writeSet t⟩) hok stmt
  set after := (stmt.exec ⟨tab, s.writeSet t⟩).1
  obtain ⟨ws, hws, hnames, hback, -⟩ := hadv.writes
  have hnames' : ∀ w ∈ ws, w.tabName = name := fun w hw => (hnames w hw).trans hname
  have hmem : ∀ t', ∀ w ∈ update s.writeSet t after.writes t', w ∈ s.writeSet t' ∨ (t' = t ∧ w.tabName = name) := by
    intro t' w hw
    by_cases ht : t' = t
    · subst ht
      rw [Function.update_self, hws] at hw
      exact (List.mem_append.mp hw).imp id fun hw => ⟨rfl, hnames' w hw⟩
    · rw [Function.update_of_ne ht] at hw
      exact Or.inl hw
  refine ⟨h.locks, h.tables.update ⟨hadv.ok, (congrArg TabMeta.name hadv.tab).trans hname⟩, ?_, ?_, ?_⟩
  · intro t' w hw
    rcases hmem t' w hw with hold | ⟨-, hn⟩
    · exact isSome_update name _ (h.there t' w hold)
    · simp only [hn, Function.update_self, Option.isSome_some]
  · intro t' w hw
    rcases hmem t' w hw with hold | ⟨rfl, hn⟩
    · exact h.holds t' w hold
    · rw [hn]
      exact hx
  · intro t' name' tab' hdb'
    change CanRollBack tab'.fh.numRecordsPerPage (writesTo name' (update s.writeSet t after.writes t').reverse) tab'.fh.records
    rcases update_cases hdb' with ⟨rfl, rfl⟩ | ⟨hn, hold⟩
    · by_cases ht : t' = t
      · subst ht
        have hall : ∀ w ∈ ws.reverse, w.tabName = name' := fun w hw => hnames' w (List.mem_reverse.mp hw)
        rw [Function.update_self, hws, List.reverse_append, writesTo_append, writesTo_eq_self hall, hadv.per]
        exact hback.canRollBack (h.back t' name' tab hdb)
      · rw [Function.update_of_ne ht, writesTo_eq_nil fun w hw => h.only_writer hx ht w (List.mem_reverse.mp hw)]
        trivial
    · by_cases ht : t' = t
      · subst ht
        have hnone : ∀ w ∈ ws.reverse, w.tabName ≠ name' := fun w hw => by
          rw [hnames' w (List.mem_reverse.mp hw)]
          exact Ne.symm hn
        rw [Function.update_self, hws, List.reverse_append, writesTo_append, writesTo_eq_nil hnone, List.nil_append]
        exact h.back t' name' tab' hold
      · rw [Function.update_of_ne ht]
        exact h.back t' name' tab' hold

/-- **The end of a transaction** keeps the invariant, if the tables that others have written stay as they are. -/
theorem Inv.finish (h : s.Inv) (log : List LogRecord) {db' : Db}
    (hok : DbOk db') (hsome : ∀ name, (db' name).isSome = (s.db name).isSome)
    (hother : ∀ t', t' ≠ t → ∀ w ∈ s.writeSet t', db' w.tabName = s.db w.tabName) {lm' : LockManager} (hlm : lm'.Ok)
    (hkeep : ∀ t' item, t' ≠ t → HoldsX (s.lm.requests item) t' → HoldsX (lm'.requests item) t') :
    Inv { s with db := db', lm := lm', writeSet := update s.writeSet t [], log := log } := by
  have hmem : ∀ t', ∀ w ∈ update s.writeSet t [] t', t' ≠ t ∧ w ∈ s.writeSet t' := by
    intro t' w hw
    by_cases ht : t' = t
    · rw [ht, Function.update_self] at hw
      cases hw
    · rw [Function.update_of_ne ht] at hw
      exact ⟨ht, hw⟩
  refine ⟨hlm, hok, ?_, ?_, ?_⟩
  · intro t' w hw
    simp only [hsome]
    exact h.there t' w (hmem t' w hw).2
  · intro t' w hw
    obtain ⟨ht, hw⟩ := hmem t' w hw
    exact hkeep t' _ ht (h.holds t' w hw)
  · intro t' name tab hdb
    change CanRollBack tab.fh.numRecordsPerPage (writesTo name (update s.writeSet t [] t').reverse) tab.fh.records
    by_cases ht : t' = t
    · rw [ht, Function.update_self]
      trivial
    · rw [Function.update_of_ne ht]
      by_cases hwritten : ∃ w ∈ s.writeSet t', w.tabName = name
      · obtain ⟨w, hw, rfl⟩ := hwritten
        simp only [hother t' ht w hw] at hdb
        exact h.back t' w.tabName tab hdb
      · rw [writesTo_eq_nil fun w hw hn => hwritten ⟨w, List.mem_reverse.mp hw, hn⟩]
        trivial

theorem Inv.createTable (h : s.Inv) {name : String} {cols : List ColMeta} {fh : RmFileHandle} (fd : ℤ) (hdb : s.db name = none)
    (hfh : RmFileHandle.createFile ((cols.map (·.len)).sum : ℕ) = .ok fh) :
    Inv { s with db := update s.db name (some (.create ⟨name, cols, []⟩ fh 3)), fds := update s.fds name fd } := by
  have hne : ∀ t, ∀ w ∈ s.writeSet t, w.tabName ≠ name := by
    rintro t w hw rfl
    have hthere := h.there t w hw
    rw [hdb] at hthere
    cases hthere
  obtain ⟨h1, h2⟩ : (1 : ℤ) ≤ ((cols.map (·.len)).sum : ℕ) ∧ (((cols.map (·.len)).sum : ℕ) : ℤ) ≤ RM_MAX_RECORD_SIZE := by
    rw [RmFileHandle.createFile] at hfh
    split at hfh
    · cases hfh
    · omega
  have hcreate : (Table.create ⟨name, cols, []⟩ fh 3).Ok := (Table.create_spec List.nodup_nil h1 h2 hfh (by decide)).1
  refine ⟨h.locks, h.tables.update ⟨hcreate, rfl⟩, fun t w hw => isSome_update name _ (h.there t w hw), ?_, ?_⟩
  · intro t w hw
    simp only [Function.update_of_ne (hne t w hw)]
    exact h.holds t w hw
  · intro t name' tab hdb'
    rcases update_cases hdb' with ⟨rfl, rfl⟩ | ⟨-, hold⟩
    · rw [writesTo_eq_nil fun w hw => hne t w (List.mem_reverse.mp hw)]
      trivial
    · exact h.back t name' tab hold

theorem Inv.dropTable (h : s.Inv) {name : String} (hne : ∀ t, ∀ w ∈ s.writeSet t, w.tabName ≠ name) :
    Inv { s with db := update s.db name none } := by
  have hother : ∀ {name' tab}, update s.db name none name' = some tab → s.db name' = some tab := by
    intro name' tab hdb
    by_cases hn : name' = name
    · rw [hn, Function.update_self] at hdb
      cases hdb
    · rwa [Function.update_of_ne hn] at hdb
  refine ⟨h.locks, fun name' tab hdb => h.tables name' tab (hother hdb), ?_, h.holds,
    fun t name' tab hdb => h.back t name' tab (hother hdb)⟩
  intro t w hw
  simp only [Function.update_of_ne (hne t w hw)]
  exact h.there t w hw

/-- **One step** keeps the invariant, unless it drops a table of a write set. -/
theorem Inv.step {e : Event} (h : s.Inv) (hmeets : s.Meets e) (hs : Step s e s') : s'.Inv := by
  cases hs with
  | beginTxn _ => exact ⟨ok_state h.locks _, h.tables, h.there, h.holds, h.back⟩
  | request t item mode =>
    exact ⟨h.locks.request rfl, h.tables, h.there, fun t' w hw => holdsX_request h.locks (h.holds t' w hw), h.back⟩
  | stmt hdb hx _ => exact h.stmt _ hdb hx _
  | @commit t locks _ =>
    obtain ⟨hok, -, hkeep⟩ := unlockAll_spec h.locks t locks
    exact h.finish _ h.tables (fun _ => rfl) (fun _ _ _ _ => rfl) (ok_state (s := { s with lm := unlockAll t locks s.lm }) hok _) hkeep
  | @abort t locks _ =>
    obtain ⟨db', hrun, hok, hsome, hother⟩ := h.abort_eq (t := t) locks
    obtain ⟨hlm, -, hkeep⟩ := unlockAll_spec (ok_state h.locks (update s.lm.state t .aborted)) t locks
    rw [hrun]
    refine h.finish _ hok hsome (fun t' ht w hw => hother _ ?_) hlm hkeep
    exact h.only_writer' ht w hw
  | createTable fd hdb hfh => exact h.createTable fd hdb hfh
  | dropTable _ => exact h.dropTable (hmeets _ rfl)
  | @createIndex name tab opening colNames hdb =>
    rcases hrun : tab.createIndex opening colNames with ⟨tab', e⟩
    have hok := (h.tables name tab hdb).1
    rcases createIndex_spec hok hrun with rfl | ⟨index, ih, -, rfl, hok', -⟩
    · exact h.replace hdb hok rfl rfl
    · exact h.replace hdb hok' rfl rfl
  | @dropIndex name tab colNames hdb =>
    obtain ⟨hok, hname, hfh⟩ := dropIndex_spec (h.tables name tab hdb).1 colNames
    exact h.replace hdb hok hname hfh

end Steps

/-! ### Runs -/

/-- **`abort` ends as it should**, for every transaction and in every state of every run in which no table of a write set
is dropped. -/
theorem abort_ends {s₀ s : TransactionManager} {tr : List (TransactionManager × Event)} (h₀ : s₀.Init) (htr : Trace Step s₀ tr s)
    (hmeets : ∀ x ∈ tr, x.1.Meets x.2) (t : TxnId) {locks : List LockDataId} (hlocks : s.Listed t locks) :
    Ends s t (s.abort t locks) := by
  have hinv : s.Inv := htr.inv (C := Meets) hmeets h₀.inv fun h hm hs => h.step hm hs
  exact hinv.ends hlocks

/-- A server with the table `k`, whose file has the descriptor `5`. -/
def started : TransactionManager where
  db := update (fun _ => none) "k" (some tableK)
  fds _ := 5
  lm := ⟨fun _ => none, fun _ => .default, fun _ => ∅, fun _ => []⟩
  writeSet _ := []
  log := []

theorem init_started : started.Init where
  tables name t hdb := by
    have hcases : update (fun _ => none) "k" (some tableK) name = some t := hdb
    rcases update_cases hcases with ⟨rfl, rfl⟩ | ⟨-, hnone⟩
    · exact ⟨tableK_spec.1, rfl⟩
    · cases hnone
  locks := ⟨fun _ => rfl, fun _ => rfl, fun _ => rfl⟩
  writeSet _ := rfl

/-- Transaction `1` has begun, and has locked the table. -/
def locked : TransactionManager :=
  let s := started.beginTxn 1
  { s with lm := (s.lm.request 1 (.table 5) .exclusive).1 }

/-- It has inserted a row. -/
def written : TransactionManager :=
  { locked with
    db := update locked.db "k" (some ((Stmt.insert [valueK 7]).exec ⟨tableK, []⟩).1.table)
    writeSet := update locked.writeSet 1 ((Stmt.insert [valueK 7]).exec ⟨tableK, []⟩).1.writes
    log := locked.log ++ [] }

/-- The steps up to then. -/
def steps : List (TransactionManager × Event) :=
  [(started, .beginTxn 1), (started.beginTxn 1, .request 1 (.table 5) .exclusive), (locked, .stmt 1 "k" (.insert [valueK 7]))]

theorem trace_written : Trace Step started steps written := by
  have hbegun : Trace Step started [(started, .beginTxn 1)] (started.beginTxn 1) := .snoc .nil (.beginTxn rfl)
  have hlocked := hbegun.snoc (.request 1 (.table 5) .exclusive)
  have hdb : locked.db "k" = some tableK := rfl
  have hx : HoldsX (locked.lm.requests (.table (locked.fds "k"))) 1 := show _ ∈ _ by decide
  have hstmt : Step locked (.stmt 1 "k" (.insert [valueK 7])) written := .stmt hdb hx fun _ hr => nomatch hr
  exact hlocked.snoc hstmt

/-- The locks of the transaction. -/
theorem listed_written : ∀ item, item ∈ [LockDataId.table 5] ↔ item ∈ written.lm.lockSet 1 := by
  intro item
  rw [show written.lm.lockSet 1 = {LockDataId.table 5} by decide]
  simp

/-- The index of the table is dropped, by any session. Then the transaction is rolled back. -/
theorem abort_ends_dropIndex : ∃ s, Trace Step started
    (steps ++ [(written, .dropIndex "k" ["a"])]) s ∧ Ends s 1 (s.abort 1 [.table 5]) := by
  have htr := trace_written.snoc (Step.dropIndex ["a"] (Function.update_self ..))
  refine ⟨_, htr, abort_ends init_started htr ?_ 1 listed_written⟩
  intro x hx
  simp only [steps, List.cons_append, List.nil_append, List.mem_cons, List.not_mem_nil, or_false] at hx
  rcases hx with rfl | rfl | rfl | rfl <;> exact fun _ he => nomatch he

/-- The table is dropped, by any session. `abort` throws, and the transaction keeps its lock. -/
theorem abort_ends_fails : ¬ ∀ (s₀ s : TransactionManager) (tr : List (TransactionManager × Event)), s₀.Init → Trace Step s₀ tr s →
    ∀ t locks, s.Listed t locks → Ends s t (s.abort t locks) := by
  intro hall
  have htr := trace_written.snoc (Step.dropTable (Function.update_self ..))
  have hends := hall _ _ _ init_started htr 1 [.table 5] listed_written
  have hreturns := hends.returns
  revert hreturns
  decide +kernel

end TransactionManager

end Rmdb.Transaction
