import Rmdb.Lib.Trace
import Rmdb.Record.FreeList
import Rmdb.Recovery.Log
import Rmdb.Transaction.Lock

/-!
# Transactions on tables, the log and the disk

The server while it runs: the table files as the buffer pool has them, the pages on disk,
the log file, the lock table, and what each transaction is doing. The threads of the
transactions interleave in any order. A step is what a thread does between two points
where another one can come in: a lock request, a change of a record, a log append, the
rollback of one write, the release of one lock.

The three executors are as their `Next` has them. `InsertExecutor` puts the record into
the file, then goes through the indexes, and only then appends to the log and to the write
set; if an index has the key already it deletes the record again. `UpdateExecutor` and
`DeleteExecutor` append to the log and to the write set first. All of them have taken the
table's exclusive lock in their constructor. A statement on many rows is many such
operations. `commit` and `abort` are as in `TransactionManager`. `add_log_to_buffer`
writes through, so the log is the log file.

A page goes to disk when the buffer pool evicts it, at any time; the file header does not.
The indexes, and with them the answer to the question whether an `INSERT` succeeds, are
left open: both outcomes are steps. `CREATE TABLE` and `DROP TABLE` are no steps here: the locks are
those of file descriptors, and a table that is created again may get another one. `Recovery.Ddl` adds them.
-/

namespace Rmdb.Transaction

open Lib Record Recovery

/-- Where the thread of a transaction is. -/
inductive Pc where
  /-- The transaction has not begun. -/
  | idle
  /-- Between two operations: `GROWING`. -/
  | running
  /-- In `InsertExecutor::Next`, after `insert_record`. -/
  | inserted (tab : String) (rid : Rid) (buf : Bytes)
  /-- In `UpdateExecutor::Next` or `DeleteExecutor::Next`, after the log append. -/
  | logged (tab : String) (rid : Rid) (c : Change Bytes)
  /-- In `commit`, after the log append. -/
  | committing
  /-- In `abort`, before the log append. -/
  | aborting
  /-- After `commit` or `abort`. -/
  | done
deriving DecidableEq

/-- The state of the server. -/
structure Sys where
  /-- The tables, as the buffer pool has them. -/
  tables : Tables
  /-- The tables, as they are on disk. -/
  disk : Tables
  /-- The log file. -/
  log : List LogRecord
  /-- The queue of every table's lock. -/
  locks : String → Queue
  /-- Where every transaction is. -/
  pc : TxnId → Pc
  /-- `write_set_` of every transaction, latest first. -/
  writeSet : TxnId → List WriteRecord
  /-- The changes the executors have made to the records of every table, each as the log record that describes it.
  This is a history, which no step depends on. -/
  made : String → List LogRecord

/-- The label of a step. -/
inductive Event where
  /-- `begin`. -/
  | beginTxn (t : TxnId)
  /-- `lock_shared_on_table` or `lock_exclusive_on_table`. -/
  | lock (t : TxnId) (tab : String) (mode : LockMode)
  /-- `InsertExecutor`: the record goes into the file. -/
  | insertRecord (t : TxnId) (tab : String) (buf : Bytes)
  /-- `InsertExecutor`: the log append. -/
  | insertLog (t : TxnId)
  /-- `InsertExecutor`: an index has the key, and the record is deleted again. -/
  | insertFail (t : TxnId)
  /-- `DeleteExecutor`: the log append. -/
  | deleteLog (t : TxnId) (tab : String) (rid : Rid)
  /-- `DeleteExecutor`: the record is deleted. -/
  | deleteRecord (t : TxnId)
  /-- `UpdateExecutor`: the log append. -/
  | updateLog (t : TxnId) (tab : String) (rid : Rid) (buf : Bytes)
  /-- `UpdateExecutor`: the record is updated. -/
  | updateRecord (t : TxnId)
  /-- `commit`: the log append. -/
  | commit (t : TxnId)
  /-- `abort` begins. -/
  | abort (t : TxnId)
  /-- `abort`: the rollback of the latest write. -/
  | undo (t : TxnId)
  /-- `unlock`, in `commit` or `abort`. -/
  | unlock (t : TxnId) (tab : String)
  /-- `commit` ends. -/
  | finish (t : TxnId)
  /-- `abort`: the log append, at its end. -/
  | abortLog (t : TxnId)
  /-- `commit` once more: `client_handler` also commits a single-statement transaction that has been aborted. -/
  | commitAgain (t : TxnId)
  /-- The buffer pool writes a page. -/
  | writePage (tab : String) (pageNo : ℤ)
deriving DecidableEq

/-- The transaction that takes a step. -/
def Event.txn : Event → Option TxnId
  | beginTxn t | lock t _ _ | insertRecord t _ _ | insertLog t | insertFail t | deleteLog t _ _ | deleteRecord t | updateLog t _ _ _
  | updateRecord t | commit t | abort t | undo t | unlock t _ | finish t | abortLog t | commitAgain t => some t
  | writePage _ _ => none

open Function (update)

/-- The steps of the server. An operation that throws ends its statement without a change, and is no step. -/
inductive Step (s : Sys) : Event → Sys → Prop where
  /-- `begin`. -/
  | beginTxn {t} : s.pc t = .idle →
    Step s (.beginTxn t) { s with pc := update s.pc t .running, log := s.log ++ [.beginTxn t] }
  /-- A lock request that is granted. -/
  | lock {t tab mode queue} : s.pc t = .running → requestLock (s.locks tab) t mode = some queue →
    Step s (.lock t tab mode) { s with locks := update s.locks tab queue }
  /-- `InsertExecutor`: the record goes into the file. -/
  | insertRecord {t tab buf f f' rid} : s.pc t = .running → HoldsX (s.locks tab) t → s.tables tab = some f →
    f.insertRecord buf = .ok (f', rid) →
    Step s (.insertRecord t tab buf) { s with
      tables := update s.tables tab (some f')
      pc := update s.pc t (.inserted tab rid buf)
      made := update s.made tab (s.made tab ++ [.insert t tab rid buf]) }
  /-- `InsertExecutor`: the log append. -/
  | insertLog {t tab rid buf} : s.pc t = .inserted tab rid buf →
    Step s (.insertLog t) { s with
      pc := update s.pc t .running
      log := s.log ++ [.insert t tab rid buf]
      writeSet := update s.writeSet t (.insert tab rid :: s.writeSet t) }
  /-- `InsertExecutor`: the record is deleted again, and with it the change. -/
  | insertFail {t tab rid buf f f'} : s.pc t = .inserted tab rid buf → s.tables tab = some f →
    f.deleteRecord rid = .ok f' →
    Step s (.insertFail t) { s with
      tables := update s.tables tab (some f')
      pc := update s.pc t .running
      made := update s.made tab (s.made tab).dropLast }
  /-- `DeleteExecutor`: the log append. -/
  | deleteLog {t tab rid f old} : s.pc t = .running → HoldsX (s.locks tab) t → s.tables tab = some f →
    f.getRecord rid = .ok old →
    Step s (.deleteLog t tab rid) { s with
      pc := update s.pc t (.logged tab rid (.delete old))
      log := s.log ++ [.delete t tab rid old]
      writeSet := update s.writeSet t (.delete tab rid old :: s.writeSet t) }
  /-- `DeleteExecutor`: the record is deleted. -/
  | deleteRecord {t tab rid old f f'} : s.pc t = .logged tab rid (.delete old) → s.tables tab = some f →
    f.deleteRecord rid = .ok f' →
    Step s (.deleteRecord t) { s with
      tables := update s.tables tab (some f')
      pc := update s.pc t .running
      made := update s.made tab (s.made tab ++ [.delete t tab rid old]) }
  /-- `UpdateExecutor`: the log append. -/
  | updateLog {t tab rid buf f old} : s.pc t = .running → HoldsX (s.locks tab) t → s.tables tab = some f →
    f.getRecord rid = .ok old →
    Step s (.updateLog t tab rid buf) { s with
      pc := update s.pc t (.logged tab rid (.update old buf))
      log := s.log ++ [.update t tab rid old buf]
      writeSet := update s.writeSet t (.update tab rid old :: s.writeSet t) }
  /-- `UpdateExecutor`: the record is updated. -/
  | updateRecord {t tab rid old new f f'} : s.pc t = .logged tab rid (.update old new) → s.tables tab = some f →
    f.updateRecord rid new = .ok f' →
    Step s (.updateRecord t) { s with
      tables := update s.tables tab (some f')
      pc := update s.pc t .running
      made := update s.made tab (s.made tab ++ [.update t tab rid old new]) }
  /-- `commit`: the log append. -/
  | commit {t} : s.pc t = .running →
    Step s (.commit t) { s with
      pc := update s.pc t .committing
      log := s.log ++ [.commit t]
      writeSet := update s.writeSet t [] }
  /-- `abort` begins. -/
  | abort {t} : s.pc t = .running → Step s (.abort t) { s with pc := update s.pc t .aborting }
  /-- `abort`: the rollback of the latest write. -/
  | undo {t w ws f f'} : s.pc t = .aborting → s.writeSet t = w :: ws → s.tables w.tabName = some f →
    f.undoWrite w = .ok f' →
    Step s (.undo t) { s with
      tables := update s.tables w.tabName (some f')
      writeSet := update s.writeSet t ws }
  /-- `unlock`, in `commit` or in `abort` after the rollback. -/
  | unlock {t tab} : (s.pc t = .committing ∨ s.pc t = .aborting ∧ s.writeSet t = []) →
    Step s (.unlock t tab) { s with locks := update s.locks tab (unlock (s.locks tab) t) }
  /-- `commit` ends. -/
  | finish {t} : s.pc t = .committing → (∀ tab, ¬ Holds (s.locks tab) t) →
    Step s (.finish t) { s with pc := update s.pc t .done }
  /-- `abort`: the log append. -/
  | abortLog {t} : s.pc t = .aborting → s.writeSet t = [] → (∀ tab, ¬ Holds (s.locks tab) t) →
    Step s (.abortLog t) { s with pc := update s.pc t .done, log := s.log ++ [.abort t] }
  /-- `commit` once more. -/
  | commitAgain {t} : s.pc t = .done → Step s (.commitAgain t) { s with log := s.log ++ [.commit t] }
  /-- The buffer pool writes a page. -/
  | writePage {tab pageNo f g} : s.tables tab = some f → s.disk tab = some g →
    Step s (.writePage tab pageNo) { s with disk := update s.disk tab (some (g.setPage pageNo (f.pages pageNo))) }

/-- The server after a start: the log is empty, nobody does anything, and the files are on disk as they are in the
buffer pool, every page in order. -/
structure Init (s : Sys) : Prop where
  log : s.log = []
  locks : ∀ tab, s.locks tab = []
  pc : ∀ t, s.pc t = .idle
  writeSet : ∀ t, s.writeSet t = []
  made : ∀ tab, s.made tab = []
  disk : s.disk = s.tables
  first : ∀ tab f, s.tables tab = some f → RM_FIRST_RECORD_PAGE ≤ f.numPages
  pages : TablesOk s.tables

/-! ### What the log says -/

/-- What a log record says of a table: the transaction, the rid and the change. -/
def LogRecord.entry (tab : String) : LogRecord → Option (TxnId × Rid × Change Bytes)
  | .insert t tab' rid v => if tab' = tab then some (t, rid, .insert v) else none
  | .delete t tab' rid v => if tab' = tab then some (t, rid, .delete v) else none
  | .update t tab' rid old new => if tab' = tab then some (t, rid, .update old new) else none
  | _ => none

/-- The transaction that a log record ends. -/
def LogRecord.ends : LogRecord → Option TxnId
  | .commit t | .abort t => some t
  | _ => none

/-- The log record that describes a change. -/
def recordOf (t : TxnId) (tab : String) (rid : Rid) : Change Bytes → LogRecord
  | .insert v => .insert t tab rid v
  | .delete old => .delete t tab rid old
  | .update old new => .update t tab rid old new

/-- The changes of a table in the log, with the transactions that made them. -/
def entries (tab : String) (log : List LogRecord) : List (TxnId × Rid × Change Bytes) :=
  log.filterMap (LogRecord.entry tab)

/-- The transaction has written a log record for a change of the table. -/
def Writes (log : List LogRecord) (t : TxnId) (tab : String) : Prop := ∃ e ∈ entries tab log, e.1 = t

/-- The transaction has written a `COMMIT` or an `ABORT` record. -/
def Ended (log : List LogRecord) (t : TxnId) : Prop := ∃ r ∈ log, LogRecord.ends r = some t

theorem entries_append (tab : String) (A B : List LogRecord) : entries tab (A ++ B) = entries tab A ++ entries tab B :=
  List.filterMap_append

theorem entries_concat (tab : String) (log : List LogRecord) (r : LogRecord) :
    entries tab (log ++ [r]) = entries tab log ++ (LogRecord.entry tab r).toList := by
  rw [entries_append]
  unfold entries
  cases h : LogRecord.entry tab r <;> simp [h]

@[simp] theorem entry_recordOf (t : TxnId) (tab tab₀ : String) (rid : Rid) (c : Change Bytes) :
    LogRecord.entry tab (recordOf t tab₀ rid c) = if tab₀ = tab then some (t, rid, c) else none := by
  cases c <;> rfl

@[simp] theorem ends_recordOf (t : TxnId) (tab : String) (rid : Rid) (c : Change Bytes) :
    LogRecord.ends (recordOf t tab rid c) = none := by
  cases c <;> rfl

theorem writes_append {A B : List LogRecord} {t : TxnId} {tab : String} :
    Writes (A ++ B) t tab ↔ Writes A t tab ∨ Writes B t tab := by
  simp only [Writes, entries_append, List.mem_append, or_and_right, exists_or]

theorem ended_append {A B : List LogRecord} {t : TxnId} : Ended (A ++ B) t ↔ Ended A t ∨ Ended B t := by
  simp only [Ended, List.mem_append, or_and_right, exists_or]

@[simp] theorem ended_singleton {r : LogRecord} {t : TxnId} : Ended [r] t ↔ LogRecord.ends r = some t := by
  simp [Ended]

@[simp] theorem writes_singleton {r : LogRecord} {t : TxnId} {tab : String} :
    Writes [r] t tab ↔ ∃ x, LogRecord.entry tab r = some (t, x) := by
  constructor
  · rintro ⟨e, he, rfl⟩
    simp only [entries, List.mem_filterMap, List.mem_singleton] at he
    obtain ⟨r', rfl, hr⟩ := he
    exact ⟨e.2, hr⟩
  · rintro ⟨x, hx⟩
    exact ⟨(t, x), by simp [entries, hx], rfl⟩

/-! ### Locks, write sets and the log -/

/-- The table on which the transaction is in the middle of an operation. -/
def Pc.tab : Pc → Option String
  | inserted tab _ _ | logged tab _ _ => some tab
  | _ => none

/-- What holds of locks, write sets and the log between the steps. -/
structure Sane (s : Sys) : Prop where
  /-- Locks of different transactions are compatible. -/
  queues : ∀ tab, QueueOk (s.locks tab)
  /-- An executor holds the exclusive lock. -/
  active : ∀ t tab, (s.pc t).tab = some tab → HoldsX (s.locks tab) t
  /-- A transaction that has not begun or has committed or ended has nothing to roll back. -/
  quiet : ∀ t, s.pc t = .idle ∨ s.pc t = .committing ∨ s.pc t = .done → s.writeSet t = []
  /-- A table with writes that may be rolled back is locked. -/
  holds : ∀ t, ∀ w ∈ s.writeSet t, HoldsX (s.locks w.tabName) t
  /-- The last record of a transaction is written in `commit`, or at the end of `abort`. -/
  ended : ∀ t, Ended s.log t ↔ s.pc t = .committing ∨ s.pc t = .done
  /-- A table that a transaction has written is locked, until the transaction has ended or rolled back. -/
  writes : ∀ t tab, Writes s.log t tab →
    HoldsX (s.locks tab) t ∨ Ended s.log t ∨ s.pc t = .aborting ∧ s.writeSet t = []

theorem Init.sane {s : Sys} (h : Init s) : Sane s where
  queues tab := by rw [h.locks]; exact queueOk_nil
  active t tab ht := by rw [h.pc] at ht; cases ht
  quiet t _ := h.writeSet t
  holds t w hw := by rw [h.writeSet] at hw; cases hw
  ended t := by simp [h.log, h.pc, Ended]
  writes t tab ht := by
    rw [h.log] at ht
    obtain ⟨e, he, -⟩ := ht
    cases he

/-- The exclusive locks that a step takes away. -/
theorem Step.holdsX {s s' : Sys} {e : Event} (h : Step s e s') (hs : Sane s) {t : TxnId} {tab : String}
    (hx : HoldsX (s.locks tab) t) :
    HoldsX (s'.locks tab) t ∨ s.pc t = .committing ∨ s.pc t = .aborting ∧ s.writeSet t = [] := by
  cases h with
  | @lock t' tab' mode queue hpc hq =>
    refine Or.inl ?_
    by_cases htab : tab = tab'
    · subst htab
      simpa using hx.requestLock hq (hs.queues tab)
    · simpa [htab] using hx
  | @unlock t' tab' hpc =>
    by_cases ht : t = t'
    · subst ht
      exact Or.inr hpc
    · refine Or.inl ?_
      by_cases htab : tab = tab'
      · subst htab
        simpa using (holdsX_unlock_of_ne ht).mpr hx
      · simpa [htab] using hx
  | _ => exact Or.inl hx

/-- The executor of a transaction appends a log record for a change of a table. -/
inductive Appends (s : Sys) : Event → TxnId → String → Prop where
  /-- `InsertExecutor`. -/
  | insertLog {t tab rid buf} : s.pc t = .inserted tab rid buf → Appends s (.insertLog t) t tab
  /-- `DeleteExecutor`. -/
  | deleteLog {t tab rid} : s.pc t = .running → HoldsX (s.locks tab) t → Appends s (.deleteLog t tab rid) t tab
  /-- `UpdateExecutor`. -/
  | updateLog {t tab rid buf} : s.pc t = .running → HoldsX (s.locks tab) t → Appends s (.updateLog t tab rid buf) t tab

section SaneStep

variable {s s' : Sys} {e : Event} {t t' : TxnId} {tab : String}

theorem Appends.holdsX (h : Appends s e t tab) (hs : Sane s) : HoldsX (s.locks tab) t := by
  cases h with
  | insertLog hpc => exact hs.active t tab (by rw [hpc]; rfl)
  | deleteLog hpc hx => exact hx
  | updateLog hpc hx => exact hx

theorem entry_iff {tab' : String} {x : Rid × Change Bytes} :
    (∃ y, (if tab = tab' then some (t, x) else none) = some (t', y)) ↔ t' = t ∧ tab' = tab := by
  constructor
  · rintro ⟨y, hy⟩
    split at hy
    · rename_i htab
      exact ⟨(Prod.mk.inj (Option.some.inj hy)).1.symm, htab.symm⟩
    · cases hy
  · rintro ⟨rfl, rfl⟩
    exact ⟨x, if_pos rfl⟩

/-- A step appends one record for one table, or none at all. -/
theorem Step.log_cases (h : Step s e s') :
    (∃ t tab r, Appends s e t tab ∧ s'.log = s.log ++ [r] ∧ ∀ t' tab', Writes [r] t' tab' ↔ t' = t ∧ tab' = tab) ∨
    ((∀ t tab, ¬ Appends s e t tab) ∧ ∃ B, s'.log = s.log ++ B ∧ ∀ t' tab', ¬ Writes B t' tab') := by
  cases h with
  | beginTxn | commit | abortLog | commitAgain =>
    refine Or.inr ⟨?_, _, rfl, ?_⟩
    · intro t' tab' ha
      cases ha
    · intro t' tab' hw
      simp [LogRecord.entry] at hw
  | @insertLog t tab rid buf hpc =>
    refine Or.inl ⟨t, tab, _, .insertLog hpc, rfl, ?_⟩
    intro t' tab'
    rw [writes_singleton]
    exact entry_iff
  | @deleteLog t tab rid f old hpc hx =>
    refine Or.inl ⟨t, tab, _, .deleteLog hpc hx, rfl, ?_⟩
    intro t' tab'
    rw [writes_singleton]
    exact entry_iff
  | @updateLog t tab rid buf f old hpc hx =>
    refine Or.inl ⟨t, tab, _, .updateLog hpc hx, rfl, ?_⟩
    intro t' tab'
    rw [writes_singleton]
    exact entry_iff
  | _ =>
    refine Or.inr ⟨?_, [], (List.append_nil _).symm, ?_⟩
    · intro t' tab' ha
      cases ha
    · rintro t' tab' ⟨e, he, -⟩
      cases he

/-- The log only grows. -/
theorem Step.log_prefix (h : Step s e s') : s.log <+: s'.log := by
  rcases h.log_cases with ⟨-, -, r, -, hlog, -⟩ | ⟨-, B, hlog, -⟩
  · exact ⟨[r], hlog.symm⟩
  · exact ⟨B, hlog.symm⟩

/-- A step is nothing to the other transactions: they stay where they are, with their write sets, and neither end nor write. -/
theorem Step.other (h : Step s e s') (hne : e.txn ≠ some t) : s'.pc t = s.pc t ∧ s'.writeSet t = s.writeSet t ∧
    (Ended s'.log t ↔ Ended s.log t) := by
  have hends : ∀ {u : TxnId}, some u ≠ some t → u ≠ t := fun hu heq => hu (congrArg some heq)
  cases h with
  | writePage | lock | unlock => exact ⟨rfl, rfl, Iff.rfl⟩
  | beginTxn | commitAgain | commit | abortLog =>
    have hu := hends hne
    simp [Function.update_of_ne hu.symm, ended_append, LogRecord.ends, hu]
  | _ =>
    have hu := hends hne
    simp [Function.update_of_ne hu.symm, ended_append, LogRecord.ends]

/-- No table goes away. -/
theorem Step.tables_ne_none (h : Step s e s') (htable : s.tables tab ≠ none) :
    s'.tables tab ≠ none := by
  have hupdate : ∀ (tab' : String) (f : RmFileHandle), update s.tables tab' (some f) tab ≠ none := fun tab' f => by
    by_cases htab : tab = tab'
    · subst htab
      simp
    · simpa [htab] using htable
  cases h with
  | insertRecord | insertFail | deleteRecord | updateRecord | undo => exact hupdate _ _
  | _ => exact htable

/-- A transaction that still has something to lose keeps its exclusive locks. -/
theorem Sane.keeps (hs : Sane s) (h : Step s e s') (hx : HoldsX (s.locks tab) t) (hpc : s.pc t ≠ .committing)
    (hws : s.pc t = .aborting → s.writeSet t ≠ []) : HoldsX (s'.locks tab) t :=
  (h.holdsX hs hx).resolve_right (not_or.mpr ⟨hpc, fun ha => hws ha.1 ha.2⟩)

theorem Sane.queues_step (hs : Sane s) (h : Step s e s') (tab : String) : QueueOk (s'.locks tab) := by
  cases h with
  | @lock t' tab' mode queue hpc hq =>
    by_cases htab : tab = tab'
    · subst htab
      simpa using (hs.queues tab).requestLock hq
    · simpa [htab] using hs.queues tab
  | @unlock t' tab' hpc =>
    by_cases htab : tab = tab'
    · subst htab
      simpa using (hs.queues tab).unlock t'
    · simpa [htab] using hs.queues tab
  | _ => exact hs.queues tab

/-- An operation goes on, or begins with the lock of its table. -/
theorem Step.operation (h : Step s e s') (ht : (s'.pc t).tab = some tab) :
    (s.pc t).tab = some tab ∨ s.pc t = .running ∧ HoldsX (s.locks tab) t ∧ s.tables tab ≠ none := by
  by_cases htxn : e.txn = some t
  · cases h with
    | insertRecord hpc hx htable | deleteLog hpc hx htable | updateLog hpc hx htable =>
      obtain rfl := Option.some.inj htxn
      simp only [Function.update_self] at ht
      obtain rfl := Option.some.inj ht
      exact .inr ⟨hpc, hx, by rw [htable]; exact Option.some_ne_none _⟩
    | lock | undo | unlock | commitAgain => exact .inl ht
    | writePage => cases htxn
    | _ =>
      -- no operation is left
      obtain rfl := Option.some.inj htxn
      simp only [Function.update_self] at ht
      cases ht
  · exact .inl ((h.other htxn).1 ▸ ht)

theorem Sane.active_step (hs : Sane s) (h : Step s e s') (t : TxnId) (tab : String) (ht : (s'.pc t).tab = some tab) :
    HoldsX (s'.locks tab) t := by
  rcases h.operation ht with hold | ⟨hpc, hx, -⟩
  · refine hs.keeps h (hs.active t tab hold) ?_ ?_
    · intro hpc
      rw [hpc] at hold
      cases hold
    · intro hpc
      rw [hpc] at hold
      cases hold
  · exact hs.keeps h hx (by simp [hpc]) (by simp [hpc])

theorem Sane.quiet_step (hs : Sane s) (h : Step s e s') (t : TxnId)
    (ht : s'.pc t = .idle ∨ s'.pc t = .committing ∨ s'.pc t = .done) : s'.writeSet t = [] := by
  by_cases htxn : e.txn = some t
  · cases h with
    | commit =>
      obtain rfl := Option.some.inj htxn
      exact Function.update_self ..
    | abortLog _ hws =>
      obtain rfl := Option.some.inj htxn
      exact hws
    | finish hpc | commitAgain hpc =>
      obtain rfl := Option.some.inj htxn
      exact hs.quiet _ (by simp [hpc])
    | unlock hpc =>
      obtain rfl := Option.some.inj htxn
      rcases hpc with hpc | ⟨-, hws⟩
      · exact hs.quiet _ (.inr (.inl hpc))
      · exact hws
    | lock hpc | undo hpc =>
      obtain rfl := Option.some.inj htxn
      simp [hpc] at ht
    | writePage => cases htxn
    | _ =>
      -- the transaction is not quiet then
      obtain rfl := Option.some.inj htxn
      simp at ht
  · obtain ⟨hpc, hws, -⟩ := h.other htxn
    rw [hws]
    rw [hpc] at ht
    exact hs.quiet t ht

/-- The lock of a write that may be rolled back stays. -/
theorem Sane.keeps_write (hs : Sane s) (h : Step s e s') {w : WriteRecord} (hw : w ∈ s.writeSet t) : HoldsX (s'.locks w.tabName) t := by
  have hne : s.writeSet t ≠ [] := List.ne_nil_of_mem hw
  exact hs.keeps h (hs.holds t w hw) (fun hpc => hne (hs.quiet t (.inr (.inl hpc)))) fun _ => hne

/-- A new write comes with a log record. -/
theorem Step.new_write (h : Step s e s') {w : WriteRecord} (hw : w ∈ s'.writeSet t) (hnew : w ∉ s.writeSet t) :
    Appends s e t w.tabName ∧ Writes s'.log t w.tabName := by
  have htxn : e.txn = some t := by
    by_contra hne
    exact hnew ((h.other hne).2.1 ▸ hw)
  cases h with
  | insertLog hpc =>
    obtain rfl := Option.some.inj htxn
    simp only [Function.update_self] at hw
    obtain rfl := (List.mem_cons.mp hw).resolve_right hnew
    exact ⟨.insertLog hpc, writes_append.mpr (.inr (by simp [LogRecord.entry, WriteRecord.tabName]))⟩
  | deleteLog hpc hx =>
    obtain rfl := Option.some.inj htxn
    simp only [Function.update_self] at hw
    obtain rfl := (List.mem_cons.mp hw).resolve_right hnew
    exact ⟨.deleteLog hpc hx, writes_append.mpr (.inr (by simp [LogRecord.entry, WriteRecord.tabName]))⟩
  | updateLog hpc hx =>
    obtain rfl := Option.some.inj htxn
    simp only [Function.update_self] at hw
    obtain rfl := (List.mem_cons.mp hw).resolve_right hnew
    exact ⟨.updateLog hpc hx, writes_append.mpr (.inr (by simp [LogRecord.entry, WriteRecord.tabName]))⟩
  | undo _ hws =>
    obtain rfl := Option.some.inj htxn
    simp only [Function.update_self] at hw
    exact absurd (hws ▸ List.mem_cons_of_mem _ hw) hnew
  | commit =>
    obtain rfl := Option.some.inj htxn
    simp only [Function.update_self] at hw
    cases hw
  | _ => exact absurd hw hnew

theorem Sane.holds_step (hs : Sane s) (h : Step s e s') (t : TxnId) (w : WriteRecord) (hw : w ∈ s'.writeSet t) :
    HoldsX (s'.locks w.tabName) t := by
  by_cases hold : w ∈ s.writeSet t
  · exact hs.keeps_write h hold
  · obtain ⟨happ, -⟩ := h.new_write hw hold
    refine hs.keeps h (happ.holdsX hs) ?_ ?_
    · intro hpc
      cases happ <;> simp_all
    · intro hpc
      cases happ <;> simp_all

theorem Sane.ended_step (hs : Sane s) (h : Step s e s') (t : TxnId) :
    Ended s'.log t ↔ s'.pc t = .committing ∨ s'.pc t = .done := by
  have hended := hs.ended t
  by_cases htxn : e.txn = some t
  · cases h with
    | commit | abortLog =>
      -- the last record of the transaction
      obtain rfl := Option.some.inj htxn
      simp [ended_append, LogRecord.ends]
    | commitAgain hpc =>
      obtain rfl := Option.some.inj htxn
      simp [ended_append, LogRecord.ends, hpc]
    | finish hpc =>
      obtain rfl := Option.some.inj htxn
      simp [hended, hpc]
    | lock | undo | unlock => exact hended
    | writePage => cases htxn
    | beginTxn hpc | insertRecord hpc | insertLog hpc | insertFail hpc | deleteLog hpc | deleteRecord hpc | updateLog hpc
    | updateRecord hpc | abort hpc =>
      obtain rfl := Option.some.inj htxn
      simp [ended_append, LogRecord.ends, hended, hpc]
  · obtain ⟨hpc, -, hlog⟩ := h.other htxn
    rw [hlog, hpc]
    exact hended

/-- After the rollback there is nothing left but to end. -/
theorem Step.rolled_back (h : Step s e s') (hpc : s.pc t = .aborting) (hws : s.writeSet t = []) :
    Ended s'.log t ∨ s'.pc t = .aborting ∧ s'.writeSet t = [] := by
  by_cases htxn : e.txn = some t
  · cases h with
    | unlock => exact .inr ⟨hpc, hws⟩
    | abortLog =>
      obtain rfl := Option.some.inj htxn
      exact .inl (by simp [ended_append, LogRecord.ends])
    | undo _ hws' =>
      obtain rfl := Option.some.inj htxn
      rw [hws] at hws'
      cases hws'
    | writePage => cases htxn
    | beginTxn hpc' | lock hpc' | insertRecord hpc' | insertLog hpc' | insertFail hpc' | deleteLog hpc' | deleteRecord hpc' | updateLog hpc'
    | updateRecord hpc' | abort hpc' | commit hpc' | finish hpc' | commitAgain hpc' =>
      obtain rfl := Option.some.inj htxn
      cases hpc.symm.trans hpc'
  · obtain ⟨hpc', hws', -⟩ := h.other htxn
    exact .inr ⟨hpc'.trans hpc, hws'.trans hws⟩

theorem Sane.writes_step (hs : Sane s) (h : Step s e s') (t : TxnId) (tab : String) (hw : Writes s'.log t tab) :
    HoldsX (s'.locks tab) t ∨ Ended s'.log t ∨ s'.pc t = .aborting ∧ s'.writeSet t = [] := by
  have hgrow : Ended s.log t → Ended s'.log t := fun hended => by
    obtain ⟨B, hB⟩ := h.log_prefix
    rw [← hB]
    exact ended_append.mpr (.inl hended)
  have hlocked : HoldsX (s.locks tab) t → HoldsX (s'.locks tab) t ∨ Ended s'.log t ∨ s'.pc t = .aborting ∧ s'.writeSet t = [] := by
    intro hx
    rcases h.holdsX hs hx with hx | hpc | ⟨hpc, hws⟩
    · exact .inl hx
    · exact .inr (.inl (hgrow ((hs.ended t).mpr (.inl hpc))))
    · exact .inr (h.rolled_back hpc hws)
  have hold : Writes s.log t tab → HoldsX (s'.locks tab) t ∨ Ended s'.log t ∨ s'.pc t = .aborting ∧ s'.writeSet t = [] := by
    intro hw
    rcases hs.writes t tab hw with hx | hended | ⟨hpc, hws⟩
    · exact hlocked hx
    · exact .inr (.inl (hgrow hended))
    · exact .inr (h.rolled_back hpc hws)
  rcases h.log_cases with ⟨t₀, tab₀, r, happ, hlog, honly⟩ | ⟨-, B, hlog, hnone⟩
  · rw [hlog] at hw
    rcases writes_append.mp hw with hw | hw
    · exact hold hw
    · -- the step writes the table, under its lock
      obtain ⟨rfl, rfl⟩ := (honly t tab).mp hw
      exact hlocked (happ.holdsX hs)
  · rw [hlog] at hw
    exact hold ((writes_append.mp hw).resolve_right (hnone t tab))

/-- Every step keeps the server sane. -/
theorem Sane.step (hs : Sane s) (h : Step s e s') : Sane s' where
  queues := hs.queues_step h
  active := hs.active_step h
  quiet := hs.quiet_step h
  holds := hs.holds_step h
  ended := hs.ended_step h
  writes := hs.writes_step h

end SaneStep

theorem Sane.run {s s' : Sys} {tr : List (Sys × Event)} (h : Sane s) (htr : Trace Step s tr s') : Sane s' :=
  htr.inv' h fun ha hs => ha.step hs

/-- Only one transaction at a time is in the middle of an operation on a table. -/
theorem Sane.pending_unique {s : Sys} {t t' : TxnId} {tab : String} (hs : Sane s) (hx : HoldsX (s.locks tab) t)
    (ht' : (s.pc t').tab = some tab) : t' = t :=
  hx.unique (hs.queues tab) (hs.active t' tab ht').holds

theorem Sane.only {s : Sys} {t : TxnId} {tab : String} (hs : Sane s) (hx : HoldsX (s.locks tab) t) {x : Pc} :
    ∀ t', t' ≠ t → ((update s.pc t x) t').tab ≠ some tab := by
  intro t' hne ht'
  rw [Function.update_of_ne hne] at ht'
  exact hne (hs.pending_unique hx ht')

/-! ### A server to start from -/

/-- A file without pages, of records of 512 bytes. -/
def emptyFile : RmFileHandle := ⟨1, 7, RM_NO_PAGE, fun _ => ⟨0, 0, []⟩⟩

example : RmFileHandle.createFile 512 = .ok emptyFile := rfl

/-- A record of 512 equal bytes. -/
def filled (b : UInt8) : Bytes := List.replicate 512 b

/-- A server with one table. -/
def serverWith (f : RmFileHandle) : Sys where
  tables := update (fun _ => none) "t" (some f)
  disk := update (fun _ => none) "t" (some f)
  log := []
  locks _ := []
  pc _ := .idle
  writeSet _ := []
  made _ := []

theorem serverWith_init {f : RmFileHandle} (hfirst : RM_FIRST_RECORD_PAGE ≤ f.numPages) (hpages : f.PagesOk) :
    Init (serverWith f) := by
  have hfile : ∀ tab f', (serverWith f).tables tab = some f' → f' = f := by
    intro tab f' hf'
    by_cases htab : tab = "t"
    · subst htab
      simpa [serverWith] using hf'.symm
    · simp [serverWith, htab] at hf'
  refine ⟨rfl, fun _ => rfl, fun _ => rfl, fun _ => rfl, fun _ => rfl, rfl, ?_, ?_⟩
  · intro tab f' hf'
    rw [hfile tab f' hf']
    exact hfirst
  · intro tab f' hf'
    rw [hfile tab f' hf']
    exact hpages

theorem emptyFile_pages : emptyFile.PagesOk := fun _ hp hp' => absurd hp (not_le.mpr hp')

/-- A server with one table, which is empty. -/
abbrev freshServer : Sys := serverWith emptyFile

theorem freshServer_init : Init freshServer := serverWith_init (le_refl _) emptyFile_pages

end Rmdb.Transaction
