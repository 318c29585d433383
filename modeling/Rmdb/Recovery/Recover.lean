import Rmdb.Parser.Lex
import Rmdb.Recovery.Analyze
import Rmdb.Recovery.Log

/-!
# Recovery from the log file

`analyze`, `redo` and `undo`, one after the other, as `main` calls them: `analyze` reads the
records and the two sets of transactions from the bytes of the log file, and `redo` and `undo` go through
what it has read.

The sets are those of the `COMMIT` and `ABORT` records that were read, so `redo` and `undo` do
what the records alone say (`Analysis.redo_eq`, `Analysis.undo_eq`). A log file that is cut off anywhere and
is shorter than `2 ^ 31` bytes is read as far as its records are whole (`recover_of_holds`). A file that the `int` of
`get_file_size` makes negative is taken for empty, and nothing is redone or undone
(`recover_of_neg`).
-/

namespace Rmdb.Recovery

open Lib Record LogEntry

/-! ### Records -/

/-- The number of a transaction. -/
def txnIdOf (logTid : Int32) : TxnId := logTid.toUInt32.toNat

/-- A `Rid` from the log. -/
def ridOf (rid : StoredRid) : Rid := ⟨rid.pageNo.toInt, rid.slotNo.toInt⟩

/-- What a record of the log file says to `redo` and `undo`. -/
def LogEntry.record (r : LogEntry) : LogRecord :=
  match r.payload with
  | .beginTxn => .beginTxn (txnIdOf r.logTid)
  | .commit => .commit (txnIdOf r.logTid)
  | .abort => .abort (txnIdOf r.logTid)
  | .insert v rid name => .insert (txnIdOf r.logTid) (Parser.string name) (ridOf rid) v
  | .delete v rid name => .delete (txnIdOf r.logTid) (Parser.string name) (ridOf rid) v
  | .update old new rid name => .update (txnIdOf r.logTid) (Parser.string name) (ridOf rid) old new

theorem txnIdOf_injective : Function.Injective txnIdOf := fun a b h => by
  rw [← Int32.toInt32_toUInt32 a, UInt32.toNat_inj.mp h, Int32.toInt32_toUInt32]

theorem logTid_record (r : LogEntry) : r.record.logTid = txnIdOf r.logTid := by
  unfold LogEntry.record
  split <;> rfl

theorem record_eq_commit {r : LogEntry} {t : TxnId} : r.record = .commit t ↔ r.payload = .commit ∧ txnIdOf r.logTid = t := by
  unfold LogEntry.record
  split <;> simp_all

theorem record_eq_abort {r : LogEntry} {t : TxnId} : r.record = .abort t ↔ r.payload = .abort ∧ txnIdOf r.logTid = t := by
  unfold LogEntry.record
  split <;> simp_all

/-! ### `RecoveryManager` -/

/-- `redo`. -/
def Analysis.redo (a : Analysis) (tables : Tables) : Except RmError Tables :=
  a.logs.foldlM (fun tables base => replayRecord redoChange (fun _ => base.logTid ∈ a.abortedTxns) tables base.record) tables

/-- `undo`. -/
def Analysis.undo (a : Analysis) (tables : Tables) : Except RmError Tables := do
  let tables ← a.logs.reverse.foldlM (fun tables base =>
    replayRecord undoChange (fun _ => base.logTid ∈ a.committedTxns || base.logTid ∈ a.abortedTxns) tables base.record) tables
  .ok fun tab => (tables tab).map RmFileHandle.rebuildFreePageList

/-- What ends recovery in another way than a return. -/
inductive RecoveryError where
  /-- In `analyze`. -/
  | analyze (e : AnalyzeError)
  /-- In `redo` or `undo`. -/
  | replay (e : RmError)

/-- `analyze`, `redo` and `undo`, on the log file and the tables on disk. -/
def recover (file : Bytes) (tables : Tables) : Except RecoveryError Tables := do
  let a ← (analyze file).mapError .analyze
  let tables ← (a.redo tables).mapError .replay
  (a.undo tables).mapError .replay

/-- The records that `analyze` reads from a file. -/
def readRecords (file : Bytes) : List LogRecord := ((analyze file).map fun a => a.logs.map LogEntry.record).toOption.getD []

/-! ### The sets of transactions -/

/-- The sets are those of the records. -/
def Analysis.Tallied (a : Analysis) : Prop := a = Analysis.pushAll ⟨[], ∅, ∅⟩ a.logs

theorem Analysis.Tallied.push {a : Analysis} (h : a.Tallied) (r : LogEntry) : (a.push r).Tallied := by
  have hpush : a.push r = (Analysis.pushAll ⟨[], ∅, ∅⟩ a.logs).push r := congrArg (Analysis.push · r) h
  rw [Tallied, hpush]
  simp [pushAll_eq, Analysis.push]

theorem tallied_analyzeLoop {file : Bytes} {bound : ℕ} {offset : ℤ} {a a' : Analysis} (h : a.Tallied)
    (hrun : analyzeLoop file bound offset a = .ok a') : a'.Tallied := by
  fun_induction analyzeLoop file bound offset a <;> simp_all [Analysis.Tallied.push]

theorem tallied_analyze {file : Bytes} {a : Analysis} (hrun : analyze file = .ok a) : a.Tallied := by
  unfold analyze at hrun
  split at hrun
  · obtain rfl := Except.ok.inj hrun
    rfl
  · exact tallied_analyzeLoop (a := ⟨[], ∅, ∅⟩) rfl hrun

section Tallied

variable {a : Analysis} {r : LogEntry}

/-- A transaction has a `COMMIT` record among the records exactly if its number is in the set. -/
theorem mem_committedTxns_iff (h : a.Tallied) :
    txnIdOf r.logTid ∈ committedTxns (a.logs.map LogEntry.record) ↔ r.logTid ∈ a.committedTxns := by
  have hset : a.committedTxns = a.logs.foldl (note .commit) ∅ := by
    conv_lhs => rw [h, pushAll_eq]
  rw [hset, mem_foldl_note, committedTxns, List.mem_filterMap]
  simp only [List.mem_map, exists_exists_and_eq_and, Finset.notMem_empty, false_or]
  refine exists_congr fun r' => and_congr_right ?_
  intro _
  rw [show (_ = some (txnIdOf r.logTid)) ↔ r'.record = .commit (txnIdOf r.logTid) by cases r'.record <;> simp, record_eq_commit,
    txnIdOf_injective.eq_iff]

/-- The same for `ABORT` records. -/
theorem mem_abortedTxns_iff (h : a.Tallied) :
    txnIdOf r.logTid ∈ abortedTxns (a.logs.map LogEntry.record) ↔ r.logTid ∈ a.abortedTxns := by
  have hset : a.abortedTxns = a.logs.foldl (note .abort) ∅ := by
    conv_lhs => rw [h, pushAll_eq]
  rw [hset, mem_foldl_note, abortedTxns, List.mem_filterMap]
  simp only [List.mem_map, exists_exists_and_eq_and, Finset.notMem_empty, false_or]
  refine exists_congr fun r' => and_congr_right ?_
  intro _
  rw [show (_ = some (txnIdOf r.logTid)) ↔ r'.record = .abort (txnIdOf r.logTid) by cases r'.record <;> simp, record_eq_abort,
    txnIdOf_injective.eq_iff]

/-- A round skips a record for its set of transactions as it does for what the records say. -/
theorem replayRecord_congr {g : RmFileHandle → Rid → Change Bytes → Except RmError RmFileHandle} {skip skip' : TxnId → Bool}
    {tables : Tables} {base : LogRecord} (h : skip base.logTid = skip' base.logTid) :
    replayRecord g skip tables base = replayRecord g skip' tables base := by
  rw [replayRecord, h]
  rfl

/-- **`redo`** does what the records say. -/
theorem Analysis.Tallied.redo_eq (h : a.Tallied) (tables : Tables) :
    a.redo tables = redoRecords (a.logs.map LogEntry.record) tables := by
  rw [Analysis.redo, redoRecords, List.foldlM_map]
  congr 1
  funext tables base
  exact replayRecord_congr (by simp only [logTid_record, mem_abortedTxns_iff h])

/-- **`undo`** does what the records say. -/
theorem Analysis.Tallied.undo_eq (h : a.Tallied) (tables : Tables) :
    a.undo tables = undoRecords (a.logs.map LogEntry.record) tables := by
  rw [Analysis.undo, undoRecords, ← List.map_reverse, List.foldlM_map]
  congr 2
  funext tables base
  exact replayRecord_congr (by simp only [logTid_record, mem_abortedTxns_iff h, mem_committedTxns_iff h])

end Tallied

theorem readRecords_eq {file : Bytes} {a : Analysis} (ha : analyze file = .ok a) :
    readRecords file = a.logs.map LogEntry.record := by
  rw [readRecords, ha]
  rfl

/-- **Recovery** does what the records that `analyze` has read say. -/
theorem recover_eq {file : Bytes} {a : Analysis} (ha : analyze file = .ok a) (tables : Tables) :
    recover file tables = (redoUndo (readRecords file) tables).mapError .replay := by
  have h := tallied_analyze ha
  have hrun : recover file tables = ((a.redo tables).mapError .replay).bind fun tables =>
      (a.undo tables).mapError .replay := by
    rw [recover, ha]
    rfl
  rw [hrun, readRecords_eq ha, redoUndo, h.redo_eq]
  cases redoRecords (a.logs.map LogEntry.record) tables with
  | error e => rfl
  | ok tables => exact congrArg (Except.mapError RecoveryError.replay) (h.undo_eq tables)

/-! ### The log file at a crash -/

/-- The log file holds these records whole: a crash may have cut off the one that was written last. -/
def Holds (file : Bytes) (log : List LogRecord) : Prop :=
  ∃ rs n, (∀ r ∈ rs, r.Ok) ∧ file = (logFile rs).take n ∧ log = (fits LogEntry.size n rs).map LogEntry.record

section Holds

variable {file : Bytes} {log : List LogRecord}

/-- A log file of whole records. -/
theorem holds_logFile {rs : List LogEntry} (hok : ∀ r ∈ rs, r.Ok) : Holds (logFile rs) (rs.map LogEntry.record) := by
  refine ⟨rs, total LogEntry.size rs, hok, ?_, ?_⟩
  · rw [← length_logFile, List.take_length]
  · have h := fits_append [] (le_refl (total LogEntry.size rs))
    rw [List.append_nil, fits, List.append_nil] at h
    rw [h]

/-- **A log file shorter than `2 ^ 31` bytes** is read whole. -/
theorem Holds.analyze (h : Holds file log) (hlen : file.length < 2 ^ 31) :
    ∃ a, Recovery.analyze file = .ok a ∧ readRecords file = log := by
  obtain ⟨rs, n, hok, rfl, rfl⟩ := h
  obtain ⟨a, ha, hlogs, -⟩ := (analyze_reconstructs_iff rs hok n).mpr hlen
  exact ⟨a, ha, by rw [readRecords_eq ha, hlogs]⟩

theorem Holds.readRecords (h : Holds file log) (hlen : file.length < 2 ^ 31) : Recovery.readRecords file = log := by
  obtain ⟨-, -, hread⟩ := h.analyze hlen
  exact hread

/-- Recovery from a log file shorter than `2 ^ 31` bytes does what the records in it say. -/
theorem recover_of_holds (h : Holds file log) (hlen : file.length < 2 ^ 31) (tables : Tables) :
    recover file tables = (redoUndo log tables).mapError .replay := by
  obtain ⟨a, ha, hread⟩ := h.analyze hlen
  rw [recover_eq ha, hread]

/-- **A log file of a negative size** is taken for empty: nothing is redone or undone. -/
theorem recover_of_neg (h : getFileSize file < 0) (tables : Tables) :
    recover file tables = .ok fun tab => (tables tab).map RmFileHandle.rebuildFreePageList := by
  rw [recover, analyze_of_neg h]
  rfl

/-- A record as it is written, with some sequence numbers. -/
def LogRecord.stored (r : LogRecord) : LogEntry :=
  let entry (payload : Payload) : LogEntry :=
    ⟨0, UInt32.ofNat (size ⟨0, 0, 0, 0, payload⟩), Int32.ofNat r.logTid, -1, payload⟩
  let storedRid (rid : Rid) : StoredRid := ⟨Int32.ofInt rid.pageNo, Int32.ofInt rid.slotNo⟩
  match r with
  | .beginTxn _ => entry .beginTxn
  | .commit _ => entry .commit
  | .abort _ => entry .abort
  | .insert _ tableName rid v => entry (.insert v (storedRid rid) (Parser.bytes tableName))
  | .delete _ tableName rid v => entry (.delete v (storedRid rid) (Parser.bytes tableName))
  | .update _ tableName rid old new => entry (.update old new (storedRid rid) (Parser.bytes tableName))

/-- The log file of some records. -/
def storedFile (log : List LogRecord) : Bytes := logFile (log.map LogRecord.stored)

/-- The records can be written, and are read as they are. -/
def Storable (r : LogRecord) : Prop := r.stored.size ≤ LOG_BUFFER_SIZE ∧ r.stored.record = r

instance (r : LogRecord) : Decidable (Storable r) := inferInstanceAs (Decidable (_ ∧ _))

theorem length_storedFile (log : List LogRecord) : (storedFile log).length = total (fun r => r.stored.size) log := by
  rw [storedFile, length_logFile, total, total, List.map_map]
  rfl

theorem holds_storedFile (h : ∀ r ∈ log, Storable r) : Holds (storedFile log) log := by
  have hok : ∀ e ∈ log.map LogRecord.stored, e.Ok := by
    intro e he
    obtain ⟨r, hr, rfl⟩ := List.mem_map.mp he
    exact ⟨by cases r <;> rfl, (h r hr).1⟩
  have hmap : (log.map LogRecord.stored).map LogEntry.record = log := by
    rw [List.map_map]
    exact (List.map_congr_left fun r hr => (h r hr).2).trans (List.map_id log)
  have hholds := holds_logFile hok
  rwa [hmap] at hholds

end Holds

end Rmdb.Recovery
