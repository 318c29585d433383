import Rmdb.Lib.Replay
import Rmdb.Record.File

/-!
# The log and recovery

`LogRecord`, and what `redo` and `undo` do with the records that `analyze` has read. The log
is here the list of its records; `Recovery.Recover` begins with the bytes of the log file. The
sequence numbers are not used by recovery and left out. A table is known by its name, and
`tables` is both the catalog (`db_.is_table`) and the open files (`fhs_`).

`redo` goes through the log forward and makes the changes of every transaction without an
`ABORT` record, each only if the slot looks as if it had not been made; `undo` goes
through it backward and takes back those of the transactions with neither a `COMMIT` nor
an `ABORT` record. Then the lists of pages with room are rebuilt. The rebuilding of the
indexes only reads the table files and is not part of this model.

What this does to a table file is, slot by slot, what `Lib.Change` says
(`redoUndo_spec`): in particular it never throws on files whose pages are in order.
-/

namespace Rmdb.Recovery

open Lib Record RmFileHandle

/-- `LogRecord`. -/
inductive LogRecord where
  /-- `BeginLogRecord`. -/
  | beginTxn (t : TxnId)
  /-- `CommitLogRecord`. -/
  | commit (t : TxnId)
  /-- `AbortLogRecord`. -/
  | abort (t : TxnId)
  /-- `InsertLogRecord`. -/
  | insert (t : TxnId) (tableName : String) (rid : Rid) (insertValue : Bytes)
  /-- `DeleteLogRecord`. -/
  | delete (t : TxnId) (tableName : String) (rid : Rid) (deleteValue : Bytes)
  /-- `UpdateLogRecord`. -/
  | update (t : TxnId) (tableName : String) (rid : Rid) (oldValue newValue : Bytes)
deriving DecidableEq

namespace LogRecord

/-- `log_tid_`. -/
def logTid : LogRecord → TxnId
  | beginTxn t | commit t | abort t | insert t _ _ _ | delete t _ _ _ | update t _ _ _ _ => t

/-- The change an `INSERT`, `DELETE` or `UPDATE` record describes: its table, its rid, and what was done. -/
def change : LogRecord → Option (String × Rid × Change Bytes)
  | insert _ tab rid v => some (tab, rid, .insert v)
  | delete _ tab rid v => some (tab, rid, .delete v)
  | update _ tab rid old new => some (tab, rid, .update old new)
  | _ => none

end LogRecord

/-- The tables of the database and their files. -/
abbrev Tables := String → Option RmFileHandle

/-- The transactions with a `COMMIT` record. -/
def committedTxns (logs : List LogRecord) : List TxnId :=
  logs.filterMap fun | .commit t => some t | _ => none

/-- The transactions with an `ABORT` record. -/
def abortedTxns (logs : List LogRecord) : List TxnId :=
  logs.filterMap fun | .abort t => some t | _ => none

/-- `has_record`. -/
def hasRecord (file : RmFileHandle) (rid : Rid) : Bool := (file.records rid).isSome

/-- Redo a change in a table file. -/
def redoChange (file : RmFileHandle) (rid : Rid) : Change Bytes → Except RmError RmFileHandle
  | .insert v => if hasRecord file rid then .ok file else file.insertRecordAt rid v
  | .delete _ => if hasRecord file rid then file.deleteRecord rid else .ok file
  | .update _ new => if hasRecord file rid then file.updateRecord rid new else .ok file

/-- Undo a change in a table file. -/
def undoChange (file : RmFileHandle) (rid : Rid) : Change Bytes → Except RmError RmFileHandle
  | .insert _ => if hasRecord file rid then file.deleteRecord rid else .ok file
  | .delete old => if hasRecord file rid then .ok file else file.insertRecordAt rid old
  | .update old _ => if hasRecord file rid then file.updateRecord rid old else .ok file

/-- One round of the loops of `redo` and `undo`: skip a record of a transaction that is left alone, a record without a
change, and a record of a table that does not exist. -/
def replayRecord (g : RmFileHandle → Rid → Change Bytes → Except RmError RmFileHandle) (skip : TxnId → Bool)
    (tables : Tables) (base : LogRecord) : Except RmError Tables :=
  if skip base.logTid then .ok tables
  else match base.change with
    | none => .ok tables
    | some (tab, rid, c) =>
      match tables tab with
      | none => .ok tables
      | some file => do
        let file ← g file rid c
        .ok (Function.update tables tab (some file))

/-- `redo`, on the records. -/
def redoRecords (logs : List LogRecord) (tables : Tables) : Except RmError Tables :=
  logs.foldlM (replayRecord redoChange fun t => t ∈ abortedTxns logs) tables

/-- `undo`, on the records. -/
def undoRecords (logs : List LogRecord) (tables : Tables) : Except RmError Tables := do
  let tables ← logs.reverse.foldlM
    (replayRecord undoChange fun t => t ∈ committedTxns logs || t ∈ abortedTxns logs) tables
  .ok fun tab => (tables tab).map RmFileHandle.rebuildFreePageList

/-- `redo` and `undo`. -/
def redoUndo (logs : List LogRecord) (tables : Tables) : Except RmError Tables := do
  let tables ← redoRecords logs tables
  undoRecords logs tables

/-! ### What recovery does to the records -/

/-- `g` does in a file what `h` does in a slot. -/
def Follows (g : RmFileHandle → Rid → Change Bytes → Except RmError RmFileHandle)
    (h : Change Bytes → Option Bytes → Option Bytes) : Prop :=
  ∀ {f : RmFileHandle} {rid : Rid} (c : Change Bytes), f.PagesOk → RidOk f.numRecordsPerPage rid →
    ∃ f', g f rid c = .ok f' ∧ Changed f f' rid (h c (f.records rid))

theorem follows_redo : Follows redoChange Change.redo := by
  intro f rid c h hrid
  rcases hr : f.records rid with _ | r
  · have hhas : hasRecord f rid = false := by simp [hasRecord, hr]
    cases c with
    | insert v =>
      simp only [redoChange, hhas, Bool.false_eq_true, if_false]
      exact insertRecordAt_spec h hrid hr v
    | delete old =>
      simp only [redoChange, hhas, Bool.false_eq_true, if_false]
      exact ⟨f, rfl, .refl h hr.symm⟩
    | update old new =>
      simp only [redoChange, hhas, Bool.false_eq_true, if_false]
      exact ⟨f, rfl, .refl h hr.symm⟩
  · have hhas : hasRecord f rid = true := by simp [hasRecord, hr]
    cases c with
    | insert v =>
      simp only [redoChange, hhas, if_true]
      exact ⟨f, rfl, .refl h hr.symm⟩
    | delete old =>
      simp only [redoChange, hhas, if_true]
      exact deleteRecord_spec h hr
    | update old new =>
      simp only [redoChange, hhas, if_true]
      exact updateRecord_spec h hr new

theorem follows_undo : Follows undoChange Change.undo := by
  intro f rid c h hrid
  rcases hr : f.records rid with _ | r
  · have hhas : hasRecord f rid = false := by simp [hasRecord, hr]
    cases c with
    | insert v =>
      simp only [undoChange, hhas, Bool.false_eq_true, if_false]
      exact ⟨f, rfl, .refl h hr.symm⟩
    | delete old =>
      simp only [undoChange, hhas, Bool.false_eq_true, if_false]
      exact insertRecordAt_spec h hrid hr old
    | update old new =>
      simp only [undoChange, hhas, Bool.false_eq_true, if_false]
      exact ⟨f, rfl, .refl h hr.symm⟩
  · have hhas : hasRecord f rid = true := by simp [hasRecord, hr]
    cases c with
    | insert v =>
      simp only [undoChange, hhas, if_true]
      exact deleteRecord_spec h hr
    | delete old =>
      simp only [undoChange, hhas, if_true]
      exact ⟨f, rfl, .refl h hr.symm⟩
    | update old new =>
      simp only [undoChange, hhas, if_true]
      exact updateRecord_spec h hr old

/-- The changes of a table in the log, of the transactions that are not skipped. -/
def changesOf (skip : TxnId → Bool) (tab : String) (logs : List LogRecord) : List (Rid × Change Bytes) :=
  logs.filterMap fun r =>
    if skip r.logTid then none
    else match r.change with
      | some (tab', rid, c) => if tab' = tab then some (rid, c) else none
      | none => none

/-- Every page of every table is in order. -/
def TablesOk (tables : Tables) : Prop := ∀ tab f, tables tab = some f → f.PagesOk

/-- Every rid of the log is one of its table. -/
def LogOk (logs : List LogRecord) (tables : Tables) : Prop :=
  ∀ r ∈ logs, ∀ tab rid c, r.change = some (tab, rid, c) → ∀ f, tables tab = some f → RidOk f.numRecordsPerPage rid

/-- The tables stay, with their records changed as `h` says. -/
def Replayed (h : Change Bytes → Option Bytes → Option Bytes) (tables tables' : Tables)
    (cs : String → List (Rid × Change Bytes)) : Prop :=
  ∀ tab, (tables tab = none → tables' tab = none) ∧ ∀ f, tables tab = some f → ∃ f', tables' tab = some f' ∧
    f'.PagesOk ∧ f'.numRecordsPerPage = f.numRecordsPerPage ∧ f'.records = Change.replayAt h f.records (cs tab)

theorem Replayed.tablesOk {h : Change Bytes → Option Bytes → Option Bytes} {tables tables' : Tables}
    {cs : String → List (Rid × Change Bytes)} (hrep : Replayed h tables tables' cs) : TablesOk tables' := by
  intro tab f' hf'
  rcases hf : tables tab with _ | f
  · rw [(hrep tab).1 hf] at hf'
    cases hf'
  · obtain ⟨f₁, hf₁, hpages, -⟩ := (hrep tab).2 f hf
    rw [hf₁, Option.some.injEq] at hf'
    exact hf' ▸ hpages

theorem Replayed.logOk {h : Change Bytes → Option Bytes → Option Bytes} {tables tables' : Tables}
    {cs : String → List (Rid × Change Bytes)} (hrep : Replayed h tables tables' cs) {logs : List LogRecord}
    (hlog : LogOk logs tables) : LogOk logs tables' := by
  intro r hr tab rid c hc f' hf'
  rcases hf : tables tab with _ | f
  · rw [(hrep tab).1 hf] at hf'
    cases hf'
  · obtain ⟨f₁, hf₁, -, hper, -⟩ := (hrep tab).2 f hf
    rw [hf₁, Option.some.injEq] at hf'
    rw [← hf', hper]
    exact hlog r hr tab rid c hc f hf

/-- One round of the loops changes at most one slot of one table. -/
theorem replayRecord_spec {g : RmFileHandle → Rid → Change Bytes → Except RmError RmFileHandle}
    {h : Change Bytes → Option Bytes → Option Bytes} (hg : Follows g h) (skip : TxnId → Bool) {tables : Tables}
    (hok : TablesOk tables) {r : LogRecord}
    (hr : ∀ tab rid c, r.change = some (tab, rid, c) → ∀ f, tables tab = some f → RidOk f.numRecordsPerPage rid) :
    ∃ tables₁, replayRecord g skip tables r = .ok tables₁ ∧
      Replayed h tables tables₁ fun tab => changesOf skip tab [r] := by
  have hkeep : (∀ tab f, tables tab = some f → changesOf skip tab [r] = []) →
      Replayed h tables tables fun tab => changesOf skip tab [r] := fun hnil tab =>
    ⟨id, fun f hf => ⟨f, hf, hok tab f hf, rfl, by simp only [hnil tab f hf]; rfl⟩⟩
  unfold replayRecord
  by_cases hskip : skip r.logTid
  · rw [if_pos hskip]
    exact ⟨tables, rfl, hkeep fun tab f _ => by simp [changesOf, hskip]⟩
  · rw [if_neg hskip]
    rcases hc : r.change with _ | ⟨tab₀, rid, c⟩
    · exact ⟨tables, rfl, hkeep fun tab f _ => by simp [changesOf, hskip, hc]⟩
    · have hchanges : ∀ tab, changesOf skip tab [r] = if tab₀ = tab then [(rid, c)] else [] := by
        intro tab
        by_cases htab : tab₀ = tab <;> simp [changesOf, hskip, hc, htab]
      rcases hf₀ : tables tab₀ with _ | f₀
      · refine ⟨tables, by simp only [hf₀], hkeep ?_⟩
        intro tab f hf
        rw [hchanges, if_neg]
        rintro rfl
        rw [hf₀] at hf
        cases hf
      · obtain ⟨f', hf', hch⟩ := hg c (hok tab₀ f₀ hf₀) (hr tab₀ rid c hc f₀ hf₀)
        refine ⟨Function.update tables tab₀ (some f'), by simp only [hf₀, hf', bind, Except.bind], ?_⟩
        intro tab
        simp only [hchanges]
        by_cases htab : tab₀ = tab
        · subst htab
          simp only [Function.update_self, if_true, hf₀, reduceCtorEq, false_implies, true_and, Option.some.injEq]
          rintro f rfl
          exact ⟨f', rfl, hch.pages, hch.per, hch.records⟩
        · rw [Function.update_of_ne (Ne.symm htab), if_neg htab]
          exact ⟨id, fun f hf => ⟨f, hf, hok tab f hf, rfl, rfl⟩⟩

/-- The loops of `redo` and `undo` replay the log in every slot. -/
theorem foldlM_replayRecord {g : RmFileHandle → Rid → Change Bytes → Except RmError RmFileHandle}
    {h : Change Bytes → Option Bytes → Option Bytes} (hg : Follows g h) (skip : TxnId → Bool) :
    ∀ (logs : List LogRecord) {tables : Tables}, TablesOk tables → LogOk logs tables →
      ∃ tables', logs.foldlM (replayRecord g skip) tables = .ok tables' ∧
        Replayed h tables tables' fun tab => changesOf skip tab logs
  | [], tables, hok, _ => ⟨tables, rfl, fun tab => ⟨id, fun f hf => ⟨f, hf, hok tab f hf, rfl, rfl⟩⟩⟩
  | r :: logs, tables, hok, hlog => by
    obtain ⟨tables₁, hrun₁, hrep₁⟩ := replayRecord_spec hg skip hok (hlog r List.mem_cons_self)
    obtain ⟨tables', hrun, hrep⟩ := foldlM_replayRecord hg skip logs hrep₁.tablesOk (hrep₁.logOk fun r' hr' =>
      hlog r' (List.mem_cons_of_mem _ hr'))
    refine ⟨tables', ?_, fun tab => ⟨fun hnone => (hrep tab).1 ((hrep₁ tab).1 hnone), ?_⟩⟩
    · rw [List.foldlM_cons, hrun₁]
      exact hrun
    · intro f hf
      obtain ⟨f₁, hf₁, -, hper₁, hrec₁⟩ := (hrep₁ tab).2 f hf
      obtain ⟨f', hf', hpages, hper, hrec⟩ := (hrep tab).2 f₁ hf₁
      refine ⟨f', hf', hpages, hper.trans hper₁, ?_⟩
      rw [hrec, hrec₁, ← Change.replayAt_append]
      congr 1
      exact (List.filterMap_append (l := [r])).symm

/-- The changes that `redo` makes: those of the transactions without an `ABORT` record. -/
def redoneChanges (tab : String) (logs : List LogRecord) : List (Rid × Change Bytes) :=
  changesOf (fun t => t ∈ abortedTxns logs) tab logs

/-- The changes that `undo` takes back: those of the transactions with neither a `COMMIT` nor an `ABORT` record. -/
def undoneChanges (tab : String) (logs : List LogRecord) : List (Rid × Change Bytes) :=
  changesOf (fun t => t ∈ committedTxns logs || t ∈ abortedTxns logs) tab logs

/-- **Recovery, slot by slot**: it does not throw, and it replays the log forward and then backward in every slot. -/
theorem redoUndo_spec {logs : List LogRecord} {tables : Tables} (hok : TablesOk tables) (hlog : LogOk logs tables) :
    ∃ tables', redoUndo logs tables = .ok tables' ∧ ∀ tab, (tables tab = none → tables' tab = none) ∧
      ∀ f, tables tab = some f → ∃ f', tables' tab = some f' ∧ ∀ rid, f'.records rid =
        Change.replay Change.undo (Change.replay Change.redo (f.records rid) (Change.changesAt rid (redoneChanges tab logs)))
          (Change.changesAt rid (undoneChanges tab logs)).reverse := by
  obtain ⟨tables₁, hrun₁, hrep₁⟩ := foldlM_replayRecord follows_redo (fun t => t ∈ abortedTxns logs) logs hok hlog
  obtain ⟨tables₂, hrun₂, hrep₂⟩ := foldlM_replayRecord follows_undo
    (fun t => t ∈ committedTxns logs || t ∈ abortedTxns logs) logs.reverse (hrep₁.tablesOk) (hrep₁.logOk fun r hr =>
      hlog r (List.mem_reverse.mp hr))
  refine ⟨fun tab => (tables₂ tab).map RmFileHandle.rebuildFreePageList, ?_, fun tab => ⟨?_, ?_⟩⟩
  · unfold redoUndo redoRecords undoRecords
    rw [hrun₁]
    simp only [bind, Except.bind, hrun₂]
  · intro hnone
    simp only [(hrep₂ tab).1 ((hrep₁ tab).1 hnone), Option.map_none]
  · intro f hf
    obtain ⟨f₁, hf₁, -, -, hrec₁⟩ := (hrep₁ tab).2 f hf
    obtain ⟨f₂, hf₂, -, -, hrec₂⟩ := (hrep₂ tab).2 f₁ hf₁
    refine ⟨f₂.rebuildFreePageList, by simp only [hf₂, Option.map_some], ?_⟩
    intro rid
    have hrev : changesOf (fun t => t ∈ committedTxns logs || t ∈ abortedTxns logs) tab logs.reverse =
        (undoneChanges tab logs).reverse := List.filterMap_reverse
    rw [RmFileHandle.records_rebuildFreePageList, hrec₂, Change.replayAt_apply, hrec₁, Change.replayAt_apply]
    simp only [hrev, Change.changesAt_reverse]
    rfl

end Rmdb.Recovery
