import Rmdb.Recovery.Crash
import Rmdb.Recovery.Rebuild

/-!
# Crashes during recovery

The log is reset at the very end of recovery, when every file has been flushed and its header
written. If the server crashes before that, recovery is begun again, with the same log, on whatever
has been written of the files until then: some pages as the first attempt has left them, in the middle of redo or
undo, some as they were, and some headers new. For the tables this makes no difference: no round throws, and
however often recovery is begun again it ends with the records that it ends with if it is
not interrupted.

It does make a difference for the indexes. `rebuild_indexes` destroys the file of an index before it creates it
again, and the catalog on disk names the index all the while. After a crash between `destroy_index` and the write
of the header in `create_index`, `open_db` does not find the file, or stops at the assertion of `deserialize` on the zeros
that it reads: the server does not start any more. `recovery_restarted` says that this is the only time
when a crash does that.
-/

namespace Rmdb.Recovery

open Lib Record RmFileHandle Transaction Change
open Index (openHdr openHdr_blank btreeOrderOf IX_INIT_NUM_PAGES)
open Function (update update_self update_of_ne)

/-! ### Index files -/

/-- `open_index` finds a header in the file. -/
def opens : Option IxFile → Bool
  | none => false
  | some file => (openHdr file.header).isSome

/-- The indexes of the catalog: the name of the file, and the columns. -/
abbrev IndexNames := List (String × List (ColType × ℕ))

/-- `open_db` opens the files of all indexes. -/
def openDb (indexes : IndexNames) (ixFiles : String → Option IxFile) : Bool := indexes.all fun x => opens (ixFiles x.1)

/-- A call of `rebuild_indexes` that changes which index files there are. -/
inductive IxTask where
  /-- `destroy_index`, if the file exists. -/
  | destroy (name : String)
  /-- `create_index`: the file is created. -/
  | create (name : String)
  /-- `create_index`: the header and the first pages are written. -/
  | write (name : String) (cols : List (ColType × ℕ))

/-- Do what a call does; creating a file that exists throws. -/
def IxTask.run (ixFiles : String → Option IxFile) : IxTask → Option (String → Option IxFile)
  | destroy name => some (update ixFiles name none)
  | create name => if (ixFiles name).isSome then none else some (update ixFiles name (some .empty))
  | write name cols => some (update ixFiles name (some (.created cols)))

/-- The calls for all indexes. -/
def ixTasks (indexes : IndexNames) : List IxTask := indexes.flatMap fun x => [.destroy x.1, .create x.1, .write x.1 x.2]

theorem opens_empty : opens (some .empty) = false := by
  rw [opens, openHdr_blank rfl]
  rfl

/-- An index that `create_index` has written opens. -/
theorem opens_created {cols : List (ColType × ℕ)} (hacc : Accepted cols) : opens (some (.created cols)) = true := by
  obtain ⟨hsame, -⟩ := run_reopens hacc (show Index.runOps (.createIndex (btreeOrderOf (colTotLen cols))) [] = some _ from rfl)
    (show IX_INIT_NUM_PAGES < 2 ^ 31 by decide)
  have hhdr : openHdr (IxFile.created cols).header = some _ := hsame.header IxFile.empty.header
  rw [opens, hhdr]
  rfl

/-! ### Recovery, step by step -/

/-- A round of one of the loops of recovery. -/
inductive Task where
  /-- Of the loop of `redo`. -/
  | redo (base : LogRecord)
  /-- Of the loop of `undo`. -/
  | undo (base : LogRecord)
deriving DecidableEq

/-- Do what a round does. -/
def Task.run (logs : List LogRecord) (tables : Tables) : Task → Except RmError Tables
  | redo base => replayRecord redoChange (fun t => t ∈ abortedTxns logs) tables base
  | undo base => replayRecord undoChange (fun t => t ∈ committedTxns logs || t ∈ abortedTxns logs) tables base

/-- The rounds of both loops. -/
def tasks (logs : List LogRecord) : List Task := logs.map .redo ++ logs.reverse.map .undo

/-- The server during recovery. -/
structure Recovering where
  /-- The tables, as the buffer pool has them. -/
  tables : Tables
  /-- The tables, as they are on disk. -/
  disk : Tables
  /-- The rounds that are still to be done. -/
  todo : List Task
  /-- The tables whose list of pages with room has been rebuilt. -/
  rebuilt : String → Bool
  /-- The tables whose header has been written. -/
  written : String → Bool
  /-- The index files. -/
  ixFiles : String → Option IxFile
  /-- The calls of `rebuild_indexes` that are still to be made. -/
  ixTodo : List IxTask

namespace Recovering

/-- Recovery begins: the files are opened as they are on disk. -/
def start (indexes : IndexNames) (logs : List LogRecord) (disk : Tables) (ixFiles : String → Option IxFile) : Recovering :=
  ⟨disk, disk, tasks logs, fun _ => false, fun _ => false, ixFiles, ixTasks indexes⟩

/-- The log can be reset. -/
structure Finished (r : Recovering) : Prop where
  todo : r.todo = []
  ixTodo : r.ixTodo = []
  written : ∀ tab f, r.tables tab = some f → r.written tab = true

/-- The server after recovery, with an empty log. -/
def started (r : Recovering) : Sys where
  tables := r.tables
  disk := r.disk
  log := []
  locks _ := []
  pc _ := .idle
  writeSet _ := []
  made _ := []

/-- An index file has been destroyed, and the header of the new one has not been written. -/
def AmidIndex (r : Recovering) : Prop :=
  (∃ name rest, r.ixTodo = .create name :: rest) ∨ ∃ name cols rest, r.ixTodo = .write name cols :: rest

/-- The label of a step. -/
inductive Event where
  /-- A round of `redo` or `undo`. -/
  | round
  /-- The buffer pool writes a page: it is evicted, or `flush_all_pages` has come to it. -/
  | writePage (tab : String) (pageNo : ℤ)
  /-- A call of `rebuild_indexes`. -/
  | rebuildIndex
  /-- Pages of an index are written: they are evicted, or the index is closed. -/
  | writeIndex (name : String)
  /-- `rebuild_free_page_list`. -/
  | rebuild (tab : String)
  /-- The header is written. -/
  | writeHeader (tab : String)
  /-- The server crashes, and recovery is begun again. -/
  | crash
deriving DecidableEq

/-- The steps of recovery. `rebuild_indexes` only reads the files of the tables. It closes an index with a header that opens again.
The tables are gone through one after the other, in any order. After a crash recovery is begun again if `open_db` opens the
indexes; otherwise nothing more happens. -/
inductive Step (indexes : IndexNames) (logs : List LogRecord) (r : Recovering) : Event → Recovering → Prop where
  /-- A round of `redo` or `undo`. -/
  | round {task todo tables} : r.todo = task :: todo → task.run logs r.tables = .ok tables →
    Step indexes logs r .round { r with tables := tables, todo := todo }
  /-- The buffer pool writes a page. -/
  | writePage {tab pageNo f g} : r.tables tab = some f → r.disk tab = some g →
    Step indexes logs r (.writePage tab pageNo) { r with
      disk := update r.disk tab (some (g.setPage pageNo (f.pages pageNo))) }
  /-- A call of `rebuild_indexes`. -/
  | rebuildIndex {task ixTodo ixFiles} : r.todo = [] → r.ixTodo = task :: ixTodo → task.run r.ixFiles = some ixFiles →
    Step indexes logs r .rebuildIndex { r with ixFiles := ixFiles, ixTodo := ixTodo }
  /-- Pages of an index are written. -/
  | writeIndex {name file} : opens (r.ixFiles name) = true → opens (some file) = true →
    Step indexes logs r (.writeIndex name) { r with ixFiles := update r.ixFiles name (some file) }
  /-- `rebuild_free_page_list`. -/
  | rebuild {tab f} : r.todo = [] → r.ixTodo = [] → r.rebuilt tab = false → r.tables tab = some f →
    Step indexes logs r (.rebuild tab) { r with
      tables := update r.tables tab (some f.rebuildFreePageList)
      rebuilt := update r.rebuilt tab true }
  /-- The header is written, after `flush_all_pages` has written every page. -/
  | writeHeader {tab f g} : r.rebuilt tab = true → r.tables tab = some f → r.disk tab = some g → g.pages = f.pages →
    Step indexes logs r (.writeHeader tab) { r with
      disk := update r.disk tab (some f)
      written := update r.written tab true }
  /-- The server crashes. -/
  | crash : openDb indexes r.ixFiles = true → Step indexes logs r .crash (start indexes logs r.disk r.ixFiles)

end Recovering

/-! ### What a round does to a slot -/

section Rounds

variable {logs : List LogRecord} {tables tables' : Tables} {tab : String} {f f' : RmFileHandle} {rid : Rid}

/-- The changes of a table that a round is about. -/
def Task.changes (logs : List LogRecord) (tab : String) : Task → List (Rid × Change Bytes)
  | redo base => changesOf (fun t => t ∈ abortedTxns logs) tab [base]
  | undo base => changesOf (fun t => t ∈ committedTxns logs || t ∈ abortedTxns logs) tab [base]

/-- What a round does to a slot. -/
def Task.slot (logs : List LogRecord) (tab : String) (rid : Rid) (x : Option Bytes) (task : Task) : Option Bytes :=
  match task with
  | redo _ => replay Change.redo x (changesAt rid (task.changes logs tab))
  | undo _ => replay Change.undo x (changesAt rid (task.changes logs tab))

/-- What recovery makes of a slot. -/
def recoveredSlot (logs : List LogRecord) (tab : String) (rid : Rid) : Option Bytes → Option Bytes :=
  recovered (changesAt rid (committedChanges tab logs)) (changesAt rid (undoneChanges tab logs))

/-- The log of a table, of `n` slots a page: the changes of the committed transactions, then those of the unfinished one,
can be made one after the other. -/
structure TableLog (logs : List LogRecord) (tab : String) (n : ℕ) (m₀ : Rid → Option Bytes) : Prop where
  split : redoneChanges tab logs = committedChanges tab logs ++ undoneChanges tab logs
  valid : ValidAt m₀ (committedChanges tab logs ++ undoneChanges tab logs)
  rids : ∀ base ∈ logs, ∀ rid c, base.change = some (tab, rid, c) → RidOk n rid

theorem foldl_slot (g : Change Bytes → Option Bytes → Option Bytes) (skip : TxnId → Bool) :
    ∀ (logs : List LogRecord) (x : Option Bytes),
      logs.foldl (fun x base => replay g x (changesAt rid (changesOf skip tab [base]))) x =
        replay g x (changesAt rid (changesOf skip tab logs))
  | [], _ => rfl
  | base :: logs, x => by
    have hcons : changesOf skip tab (base :: logs) = changesOf skip tab [base] ++ changesOf skip tab logs :=
      List.filterMap_append (l := [base])
    rw [List.foldl_cons, foldl_slot g skip logs, hcons, changesAt_append, replay_append]

/-- All rounds, one after the other. -/
theorem foldl_tasks {n : ℕ} {m₀ : Rid → Option Bytes} (h : TableLog logs tab n m₀) (x : Option Bytes) :
    (tasks logs).foldl (Task.slot logs tab rid) x = recoveredSlot logs tab rid x := by
  have hrev : changesOf (fun t => t ∈ committedTxns logs || t ∈ abortedTxns logs) tab logs.reverse =
      (undoneChanges tab logs).reverse := List.filterMap_reverse
  rw [tasks, List.foldl_append, List.foldl_map, List.foldl_map]
  simp only [Task.slot, Task.changes]
  rw [foldl_slot, foldl_slot, hrev, changesAt_reverse]
  change replay Change.undo (replay Change.redo x (changesAt rid (redoneChanges tab logs))) _ = _
  rw [h.split, changesAt_append]
  rfl

/-- A slot is recovered as before after a round. -/
theorem recoveredSlot_slot {n : ℕ} {m₀ : Rid → Option Bytes} (h : TableLog logs tab n m₀) {task : Task} (htask : task ∈ tasks logs)
    (x : Option Bytes) : recoveredSlot logs tab rid (task.slot logs tab rid x) = recoveredSlot logs tab rid x := by
  have hvalid := h.valid.validTrace rid
  rw [changesAt_append] at hvalid
  have hsub : ∀ {skip : TxnId → Bool} {base : LogRecord}, base ∈ logs →
      ∀ c ∈ changesAt rid (changesOf skip tab [base]), c ∈ changesAt rid (changesOf skip tab logs) := by
    intro skip base hbase c hc
    obtain ⟨A, B, rfl⟩ := List.append_of_mem hbase
    have hsplit : changesOf skip tab (A ++ base :: B) =
        changesOf skip tab A ++ (changesOf skip tab [base] ++ changesOf skip tab B) := by
      rw [changesOf, List.filterMap_append]
      exact congrArg _ (List.filterMap_append (l := [base]))
    rw [hsplit, changesAt_append, changesAt_append]
    exact List.mem_append_right _ (List.mem_append_left _ hc)
  have hall : ∀ {g : Change Bytes → Option Bytes → Option Bytes} {cs : List (Change Bytes)},
      (∀ c ∈ cs, ∀ x, recoveredSlot logs tab rid (g c x) = recoveredSlot logs tab rid x) →
      ∀ x, recoveredSlot logs tab rid (replay g x cs) = recoveredSlot logs tab rid x := by
    intro g cs
    induction cs with
    | nil => exact fun _ _ => rfl
    | cons c cs ih =>
      intro hc x
      rw [replay_cons, ih (fun c' hc' => hc c' (List.mem_cons_of_mem _ hc')), hc c List.mem_cons_self]
  rcases List.mem_append.mp htask with hmem | hmem
  · obtain ⟨base, hbase, rfl⟩ := List.mem_map.mp hmem
    refine hall ?_ x
    intro c hc x
    have hmem' : c ∈ changesAt rid (redoneChanges tab logs) := hsub hbase c hc
    rw [h.split, changesAt_append] at hmem'
    exact recovered_redo hvalid hmem' x
  · obtain ⟨base, hbase, rfl⟩ := List.mem_map.mp hmem
    exact hall (fun c hc x => recovered_undo hvalid (hsub (List.mem_reverse.mp hbase) c hc) x) x

end Rounds

/-! ### The index files -/

/-- The files of all indexes but that one open. -/
def OpenBut (indexes : IndexNames) (ixFiles : String → Option IxFile) (name : String) : Prop :=
  ∀ x ∈ indexes, x.1 ≠ name → opens (ixFiles x.1) = true

/-- How far `rebuild_indexes` has come, and which files there are then. -/
inductive IxStage (indexes : IndexNames) (ixFiles : String → Option IxFile) : List IxTask → Prop where
  /-- Between two indexes. -/
  | between {rest : IndexNames} : rest ⊆ indexes → openDb indexes ixFiles = true → IxStage indexes ixFiles (ixTasks rest)
  /-- The file has been destroyed. -/
  | destroyed {x : String × List (ColType × ℕ)} {rest : IndexNames} : x ∈ indexes → rest ⊆ indexes → ixFiles x.1 = none →
    OpenBut indexes ixFiles x.1 → IxStage indexes ixFiles (.create x.1 :: .write x.1 x.2 :: ixTasks rest)
  /-- The file has been created. -/
  | created {x : String × List (ColType × ℕ)} {rest : IndexNames} : x ∈ indexes → rest ⊆ indexes →
    ixFiles x.1 = some .empty → OpenBut indexes ixFiles x.1 → IxStage indexes ixFiles (.write x.1 x.2 :: ixTasks rest)

section Indexes

variable {indexes : IndexNames} {logs : List LogRecord} {r r' : Recovering} {e : Recovering.Event} {ixFiles : String → Option IxFile}

theorem openDb_iff : openDb indexes ixFiles = true ↔ ∀ x ∈ indexes, opens (ixFiles x.1) = true := by
  simp only [openDb, List.all_eq_true]

theorem OpenBut.update {name : String} {file : Option IxFile} (h : OpenBut indexes ixFiles name) :
    OpenBut indexes (update ixFiles name file) name := fun x hx hne => by
  rw [update_of_ne hne]
  exact h x hx hne

/-- **A call of `rebuild_indexes`** does not throw, and the next one is due. -/
theorem IxStage.run (hacc : ∀ x ∈ indexes, Accepted x.2) {task : IxTask} {ixTodo : List IxTask}
    (h : IxStage indexes ixFiles (task :: ixTodo)) :
    ∃ ixFiles', task.run ixFiles = some ixFiles' ∧ IxStage indexes ixFiles' ixTodo := by
  generalize htasks : task :: ixTodo = tasks at h
  cases h with
  | @between rest hsub hopen =>
    cases rest with
    | nil => cases htasks
    | cons x rest =>
      obtain ⟨rfl, rfl⟩ := List.cons.inj htasks
      obtain ⟨hx, hsub⟩ := List.cons_subset.mp hsub
      exact ⟨_, rfl, .destroyed hx hsub (update_self ..) (OpenBut.update fun y hy _ => openDb_iff.mp hopen y hy)⟩
  | destroyed hx hsub hnone hbut =>
    obtain ⟨rfl, rfl⟩ := List.cons.inj htasks
    refine ⟨_, ?_, .created hx hsub (update_self ..) hbut.update⟩
    rw [IxTask.run, hnone]
    rfl
  | @created x rest hx hsub hempty hbut =>
    obtain ⟨rfl, rfl⟩ := List.cons.inj htasks
    refine ⟨_, rfl, .between hsub (openDb_iff.mpr ?_)⟩
    intro y hy
    by_cases hne : y.1 = x.1
    · rw [hne, update_self]
      exact opens_created (hacc x hx)
    · rw [update_of_ne hne]
      exact hbut y hy hne

/-- Pages of an index that is open are written. -/
theorem IxStage.write {ixTodo : List IxTask} {name : String} {file : IxFile} (h : IxStage indexes ixFiles ixTodo)
    (hold : opens (ixFiles name) = true) (hnew : opens (some file) = true) :
    IxStage indexes (update ixFiles name (some file)) ixTodo := by
  have hall : ∀ {x : String × List (ColType × ℕ)}, opens (ixFiles x.1) = true →
      opens (update ixFiles name (some file) x.1) = true := by
    intro x hx
    by_cases hne : x.1 = name
    · rw [hne, update_self]
      exact hnew
    · rw [update_of_ne hne]
      exact hx
  cases h with
  | between hsub hopen => exact .between hsub (openDb_iff.mpr fun x hx => hall (openDb_iff.mp hopen x hx))
  | @destroyed x rest hx hsub hnone hbut =>
    have hne : x.1 ≠ name := by
      rintro rfl
      rw [hnone] at hold
      cases hold
    exact .destroyed hx hsub ((update_of_ne hne ..).trans hnone) fun y hy hy' => hall (hbut y hy hy')
  | @created x rest hx hsub hempty hbut =>
    have hne : x.1 ≠ name := by
      rintro rfl
      rw [hempty, opens_empty] at hold
      cases hold
    exact .created hx hsub ((update_of_ne hne ..).trans hempty) fun y hy hy' => hall (hbut y hy hy')

theorem ixStage_start (hopen : openDb indexes ixFiles = true) : IxStage indexes ixFiles (ixTasks indexes) :=
  .between (List.Subset.refl _) hopen

/-- **A step of recovery**, a crash included, keeps the stage. -/
theorem IxStage.step (hacc : ∀ x ∈ indexes, Accepted x.2) (h : IxStage indexes r.ixFiles r.ixTodo)
    (hstep : Recovering.Step indexes logs r e r') : IxStage indexes r'.ixFiles r'.ixTodo := by
  cases hstep with
  | rebuildIndex _ htodo hrun =>
    rw [htodo] at h
    obtain ⟨ixFiles', hrun', h'⟩ := h.run hacc
    obtain rfl := Option.some.inj (hrun.symm.trans hrun')
    exact h'
  | writeIndex hold hnew => exact h.write hold hnew
  | crash hopen => exact ixStage_start hopen
  | _ => exact h

/-- **When the server starts again**: `open_db` opens the indexes except while one of them is being made anew. -/
theorem IxStage.openDb_iff (h : IxStage indexes r.ixFiles r.ixTodo) : openDb indexes r.ixFiles = true ↔ ¬ r.AmidIndex := by
  unfold Recovering.AmidIndex
  generalize r.ixFiles = ixFiles, r.ixTodo = ixTodo at h
  cases h with
  | @between rest hsub hopen =>
    refine iff_of_true hopen ?_
    cases rest with
    | nil => simp [ixTasks]
    | cons x rest => simp [ixTasks]
  | @destroyed x rest hx hsub hnone hbut =>
    refine iff_of_false ?_ (not_not.mpr (.inl ⟨x.1, _, rfl⟩))
    intro hopen
    have hx' := Recovery.openDb_iff.mp hopen x hx
    rw [hnone] at hx'
    cases hx'
  | @created x rest hx hsub hempty hbut =>
    refine iff_of_false ?_ (not_not.mpr (.inr ⟨x.1, x.2, _, rfl⟩))
    intro hopen
    have hx' := Recovery.openDb_iff.mp hopen x hx
    rw [hempty, opens_empty] at hx'
    cases hx'

end Indexes

/-! ### The invariant of recovery -/

/-- A file in the middle of recovery, in memory or on disk: its slots are recovered as those of the file `g₀`. -/
structure Restorable (logs : List LogRecord) (tab : String) (g₀ f : RmFileHandle) : Prop where
  pages : f.PagesOk
  per : f.numRecordsPerPage = g₀.numRecordsPerPage
  first : RM_FIRST_RECORD_PAGE ≤ f.numPages
  slots : ∀ rid, recoveredSlot logs tab rid (f.records rid) = recoveredSlot logs tab rid (g₀.records rid)

/-- A table in the middle of recovery. -/
structure TableOk (logs : List LogRecord) (tab : String) (g₀ : RmFileHandle) (r : Recovering) (f g : RmFileHandle) : Prop where
  file : r.tables tab = some f
  disk : r.disk tab = some g
  memory : Restorable logs tab g₀ f
  stored : Restorable logs tab g₀ g
  grows : g.numPages ≤ f.numPages
  /-- The rounds that are left do what is left to do. -/
  todo : ∀ rid, r.todo.foldl (Task.slot logs tab rid) (f.records rid) = recoveredSlot logs tab rid (g₀.records rid)

/-- What holds at any time of recovery from the disk `disk₀`. -/
structure RecoveringOk (logs : List LogRecord) (disk₀ : Tables) (r : Recovering) : Prop where
  todo : r.todo <:+ tasks logs
  rebuilt : ∀ tab, r.rebuilt tab = true → r.todo = []
  written : ∀ tab, r.written tab = true → r.rebuilt tab = true ∧ r.disk tab = r.tables tab
  absent : ∀ tab, disk₀ tab = none → r.tables tab = none ∧ r.disk tab = none
  present : ∀ tab g₀, disk₀ tab = some g₀ → ∃ f g, TableOk logs tab g₀ r f g

section Recovery

variable {indexes : IndexNames} {ixFiles : String → Option IxFile} {logs : List LogRecord} {disk₀ : Tables} {r r' : Recovering}
  {e : Recovering.Event} {tab : String} {f g g₀ : RmFileHandle}

theorem TableOk.memory_eq (h : TableOk logs tab g₀ r f g) (htodo : r.todo = []) (rid : Rid) :
    f.records rid = recoveredSlot logs tab rid (g₀.records rid) := by
  rw [← h.todo rid, htodo]
  rfl

/-- Recovery begins, for the first time or again. -/
theorem TableOk.start {disk : Tables} {n : ℕ} {m₀ : Rid → Option Bytes} (hlog : TableLog logs tab n m₀)
    (hg : disk tab = some g) (h : Restorable logs tab g₀ g) : TableOk logs tab g₀ (.start indexes logs disk ixFiles) g g :=
  ⟨hg, hg, h, h, le_refl _, fun rid => (foldl_tasks hlog _).trans (h.slots rid)⟩

/-- A page is written to disk. -/
theorem Restorable.setPage (hg : Restorable logs tab g₀ g) (hf : Restorable logs tab g₀ f) (hgrows : g.numPages ≤ f.numPages)
    (p : ℤ) : Restorable logs tab g₀ (g.setPage p (f.pages p)) := by
  have hper : g.numRecordsPerPage = f.numRecordsPerPage := hg.per.trans hf.per.symm
  refine ⟨PagesOk.setPage hg.pages hf.pages hper hgrows, hg.per, hg.first, ?_⟩
  intro rid
  rcases records_setPage (p := p) hper hgrows rid with heq | ⟨-, heq⟩
  · rw [heq]
    exact hg.slots rid
  · rw [heq]
    exact hf.slots rid

/-- A table that is not there is not changed. -/
theorem update_absent {m tables : Tables} {tab₀ : String} (hf : tables tab₀ = some f) (hnone : tables tab = none)
    (o : Option RmFileHandle) : update m tab₀ o tab = m tab := by
  refine Function.update_of_ne ?_ ..
  rintro rfl
  rw [hnone] at hf
  cases hf

/-- A round goes on, and pages stay. -/
theorem replayRecord_grows {g : RmFileHandle → Rid → Change Bytes → Except RmError RmFileHandle}
    {h : Change Bytes → Option Bytes → Option Bytes} (hg : Follows g h) (skip : TxnId → Bool) {tables tables' : Tables}
    (hok : TablesOk tables) {base : LogRecord}
    (hbase : ∀ tab rid c, base.change = some (tab, rid, c) → ∀ f, tables tab = some f → RidOk f.numRecordsPerPage rid)
    (hrun : replayRecord g skip tables base = .ok tables') (hf : tables tab = some f) :
    ∃ f', tables' tab = some f' ∧ f.numPages ≤ f'.numPages := by
  unfold replayRecord at hrun
  split at hrun
  · cases hrun
    exact ⟨f, hf, le_refl _⟩
  · split at hrun
    · cases hrun
      exact ⟨f, hf, le_refl _⟩
    · rename_i tab₀ rid c hc
      split at hrun
      · cases hrun
        exact ⟨f, hf, le_refl _⟩
      · rename_i f₀ hf₀
        obtain ⟨f', hf', hch⟩ := hg c (hok tab₀ f₀ hf₀) (hbase tab₀ rid c hc f₀ hf₀)
        simp only [hf', bind, Except.bind, Except.ok.injEq] at hrun
        subst hrun
        by_cases htab : tab = tab₀
        · subst htab
          obtain rfl := Option.some.inj (hf.symm.trans hf₀)
          exact ⟨f', Function.update_self .., hch.grows⟩
        · exact ⟨f, (Function.update_of_ne htab ..).trans hf, le_refl _⟩

/-- A round does not throw. -/
theorem RecoveringOk.run (h : RecoveringOk logs disk₀ r)
    (hlogs : ∀ tab g₀, disk₀ tab = some g₀ → ∃ m₀, TableLog logs tab g₀.numRecordsPerPage m₀) {task : Task}
    (htask : task ∈ tasks logs) : ∃ tables, task.run logs r.tables = .ok tables ∧
      ∀ tab, (r.tables tab = none → tables tab = none) ∧ ∀ f, r.tables tab = some f → ∃ f', tables tab = some f' ∧ f'.PagesOk ∧
        f'.numRecordsPerPage = f.numRecordsPerPage ∧ f.numPages ≤ f'.numPages ∧
        ∀ rid, f'.records rid = task.slot logs tab rid (f.records rid) := by
  have hdisk : ∀ tab f, r.tables tab = some f → ∃ g₀ g, disk₀ tab = some g₀ ∧ TableOk logs tab g₀ r f g := by
    intro tab f hf
    cases hg₀ : disk₀ tab with
    | none =>
      rw [(h.absent tab hg₀).1] at hf
      cases hf
    | some g₀ =>
      obtain ⟨f', g, hok⟩ := h.present tab g₀ hg₀
      obtain rfl := Option.some.inj (hf.symm.trans hok.file)
      exact ⟨g₀, g, rfl, hok⟩
  have hok : TablesOk r.tables := fun tab f hf => by
    obtain ⟨g₀, g, -, hok⟩ := hdisk tab f hf
    exact hok.memory.pages
  have hbase : ∀ base ∈ logs, ∀ tab rid c, base.change = some (tab, rid, c) → ∀ f, r.tables tab = some f →
      RidOk f.numRecordsPerPage rid := by
    intro base hbase tab rid c hc f hf
    obtain ⟨g₀, g, hg₀, hok⟩ := hdisk tab f hf
    obtain ⟨m₀, hlog⟩ := hlogs tab g₀ hg₀
    rw [hok.memory.per]
    exact hlog.rids base hbase rid c hc
  have hround : ∀ {g : RmFileHandle → Rid → Change Bytes → Except RmError RmFileHandle}
      {h : Change Bytes → Option Bytes → Option Bytes} (_ : Follows g h) (skip : TxnId → Bool) {base : LogRecord},
      base ∈ logs → ∃ tables, replayRecord g skip r.tables base = .ok tables ∧
        ∀ tab, (r.tables tab = none → tables tab = none) ∧ ∀ f, r.tables tab = some f → ∃ f', tables tab = some f' ∧
          f'.PagesOk ∧ f'.numRecordsPerPage = f.numRecordsPerPage ∧ f.numPages ≤ f'.numPages ∧
          ∀ rid, f'.records rid = replay h (f.records rid) (changesAt rid (changesOf skip tab [base])) := by
    intro g h hg skip base hin
    obtain ⟨tables, hrun, hrep⟩ := replayRecord_spec hg skip hok (hbase base hin)
    refine ⟨tables, hrun, fun tab => ⟨(hrep tab).1, ?_⟩⟩
    intro f hf
    obtain ⟨f', hf', hpages, hper, hrec⟩ := (hrep tab).2 f hf
    obtain ⟨f'', hf'', hgrows⟩ := replayRecord_grows hg skip hok (hbase base hin) hrun hf
    obtain rfl := Option.some.inj (hf'.symm.trans hf'')
    exact ⟨f', hf', hpages, hper, hgrows, fun rid => by rw [hrec, replayAt_apply]⟩
  rcases List.mem_append.mp htask with hmem | hmem
  · obtain ⟨base, hin, rfl⟩ := List.mem_map.mp hmem
    exact hround follows_redo (fun t => t ∈ abortedTxns logs) hin
  · obtain ⟨base, hin, rfl⟩ := List.mem_map.mp hmem
    exact hround follows_undo (fun t => t ∈ committedTxns logs || t ∈ abortedTxns logs) (List.mem_reverse.mp hin)

/-- A table that has not changed. -/
theorem TableOk.of_same (h : TableOk logs tab g₀ r f g) (hf : r'.tables tab = r.tables tab) (hg : r'.disk tab = r.disk tab)
    (htodo : r'.todo = r.todo) : TableOk logs tab g₀ r' f g :=
  ⟨hf.trans h.file, hg.trans h.disk, h.memory, h.stored, h.grows, htodo ▸ h.todo⟩

/-- A round of `redo` or `undo`. -/
theorem RecoveringOk.round {task : Task} {todo : List Task} {tables : Tables} (h : RecoveringOk logs disk₀ r)
    (hlogs : ∀ tab g₀, disk₀ tab = some g₀ → ∃ m₀, TableLog logs tab g₀.numRecordsPerPage m₀) (htodo : r.todo = task :: todo)
    (hrun : task.run logs r.tables = .ok tables) :
    RecoveringOk logs disk₀ { r with tables := tables, todo := todo } := by
  have htask : task ∈ tasks logs := h.todo.subset (htodo ▸ List.mem_cons_self)
  obtain ⟨tables', hrun', hspec⟩ := h.run hlogs htask
  obtain rfl := Except.ok.inj (hrun.symm.trans hrun')
  have hnone : ∀ tab, r.rebuilt tab = true → False := by
    intro tab hre
    rw [h.rebuilt tab hre] at htodo
    cases htodo
  refine ⟨(List.suffix_cons task todo).trans (htodo ▸ h.todo), fun tab hre => (hnone tab hre).elim,
    fun tab hw => (hnone tab (h.written tab hw).1).elim, ?_, ?_⟩
  · intro tab hg₀
    exact ⟨(hspec tab).1 (h.absent tab hg₀).1, (h.absent tab hg₀).2⟩
  · intro tab g₀ hg₀
    obtain ⟨m₀, hlog⟩ := hlogs tab g₀ hg₀
    obtain ⟨f, g, hok⟩ := h.present tab g₀ hg₀
    obtain ⟨f', hf', hpages, hper, hgrows, hrec⟩ := (hspec tab).2 f hok.file
    refine ⟨f', g, hf', hok.disk, ⟨hpages, hper.trans hok.memory.per, hok.memory.first.trans hgrows, ?_⟩,
      hok.stored, hok.grows.trans hgrows, ?_⟩
    · intro rid
      rw [hrec, recoveredSlot_slot hlog htask]
      exact hok.memory.slots rid
    · intro rid
      have hall := hok.todo rid
      rw [htodo, List.foldl_cons] at hall
      rw [hrec]
      exact hall

/-- A page is written. -/
theorem RecoveringOk.writePage {tab₀ : String} {p : ℤ} {f₀ g₁ : RmFileHandle} (h : RecoveringOk logs disk₀ r)
    (hf₀ : r.tables tab₀ = some f₀) (hg₁ : r.disk tab₀ = some g₁) :
    RecoveringOk logs disk₀ { r with disk := update r.disk tab₀ (some (g₁.setPage p (f₀.pages p))) } := by
  refine ⟨h.todo, h.rebuilt, ?_, ?_, ?_⟩
  · intro tab hw
    obtain ⟨hre, hsame⟩ := h.written tab hw
    refine ⟨hre, ?_⟩
    by_cases htab : tab = tab₀
    · subst htab
      obtain rfl : g₁ = f₀ := Option.some.inj (hg₁.symm.trans (hsame.trans hf₀))
      change update r.disk tab _ tab = r.tables tab
      rw [Function.update_self, hf₀]
      exact congrArg some (by rw [RmFileHandle.setPage, Function.update_eq_self])
    · exact (Function.update_of_ne htab ..).trans hsame
  · intro tab hg₀
    obtain ⟨hnone, hnone'⟩ := h.absent tab hg₀
    exact ⟨hnone, (update_absent hf₀ hnone _).trans hnone'⟩
  · intro tab g₀ hg₀
    obtain ⟨f, g, hok⟩ := h.present tab g₀ hg₀
    by_cases htab : tab = tab₀
    · subst htab
      obtain rfl := Option.some.inj (hf₀.symm.trans hok.file)
      obtain rfl := Option.some.inj (hg₁.symm.trans hok.disk)
      exact ⟨f₀, _, hok.file, Function.update_self .., hok.memory, hok.stored.setPage hok.memory hok.grows p, hok.grows,
        hok.todo⟩
    · exact ⟨f, g, hok.of_same rfl (Function.update_of_ne htab ..) rfl⟩

/-- The list of the pages with room says nothing of the records. -/
theorem TableOk.rebuild (h : TableOk logs tab g₀ r f g) (hf : r'.tables tab = some f.rebuildFreePageList)
    (hg : r'.disk tab = r.disk tab) (htodo : r'.todo = r.todo) : TableOk logs tab g₀ r' f.rebuildFreePageList g := by
  obtain ⟨-, hcells, hrecords, hpages, hper⟩ := rebuildFreePageList_ok f
  refine ⟨hf, hg.trans h.disk, ⟨?_, hper.trans h.memory.per, hpages ▸ h.memory.first, ?_⟩, h.stored, hpages ▸ h.grows, ?_⟩
  · intro q hq hq'
    rw [hcells, hper]
    exact h.memory.pages q hq (hpages ▸ hq')
  · rw [hrecords]
    exact h.memory.slots
  · rw [hrecords, htodo]
    exact h.todo

/-- `rebuild_free_page_list`. -/
theorem RecoveringOk.rebuild {tab₀ : String} {f₀ : RmFileHandle} (h : RecoveringOk logs disk₀ r) (htodo : r.todo = [])
    (hre₀ : r.rebuilt tab₀ = false) (hf₀ : r.tables tab₀ = some f₀) :
    RecoveringOk logs disk₀ { r with
      tables := update r.tables tab₀ (some f₀.rebuildFreePageList)
      rebuilt := update r.rebuilt tab₀ true } := by
  refine ⟨h.todo, fun _ _ => htodo, ?_, ?_, ?_⟩
  · intro tab hw
    obtain ⟨hre, hsame⟩ := h.written tab hw
    have htab : tab ≠ tab₀ := by
      rintro rfl
      rw [hre₀] at hre
      cases hre
    exact ⟨(Function.update_of_ne htab ..).trans hre, hsame.trans (Function.update_of_ne htab ..).symm⟩
  · intro tab hg₀
    obtain ⟨hnone, hnone'⟩ := h.absent tab hg₀
    exact ⟨(update_absent hf₀ hnone _).trans hnone, hnone'⟩
  · intro tab g₀ hg₀
    obtain ⟨f, g, hok⟩ := h.present tab g₀ hg₀
    by_cases htab : tab = tab₀
    · subst htab
      obtain rfl := Option.some.inj (hf₀.symm.trans hok.file)
      exact ⟨_, g, hok.rebuild (Function.update_self ..) rfl rfl⟩
    · exact ⟨f, g, hok.of_same (Function.update_of_ne htab ..) rfl rfl⟩

/-- The header is written, after every page. -/
theorem RecoveringOk.writeHeader {tab₀ : String} {f₀ : RmFileHandle} (h : RecoveringOk logs disk₀ r)
    (hre : r.rebuilt tab₀ = true) (hf₀ : r.tables tab₀ = some f₀) :
    RecoveringOk logs disk₀ { r with disk := update r.disk tab₀ (some f₀), written := update r.written tab₀ true } := by
  refine ⟨h.todo, h.rebuilt, ?_, ?_, ?_⟩
  · intro tab hw
    by_cases htab : tab = tab₀
    · subst htab
      exact ⟨hre, (Function.update_self ..).trans hf₀.symm⟩
    · have hw' : r.written tab = true := (Function.update_of_ne htab ..).symm.trans hw
      exact ⟨(h.written tab hw').1, (Function.update_of_ne htab ..).trans (h.written tab hw').2⟩
  · intro tab hg₀
    obtain ⟨hnone, hnone'⟩ := h.absent tab hg₀
    exact ⟨hnone, (update_absent hf₀ hnone _).trans hnone'⟩
  · intro tab g₀ hg₀
    obtain ⟨f, g, hok⟩ := h.present tab g₀ hg₀
    by_cases htab : tab = tab₀
    · subst htab
      obtain rfl := Option.some.inj (hf₀.symm.trans hok.file)
      exact ⟨f₀, f₀, hok.file, Function.update_self .., hok.memory, hok.memory, le_refl _, hok.todo⟩
    · exact ⟨f, g, hok.of_same rfl (Function.update_of_ne htab ..) rfl⟩

/-- Recovery is begun again from what is on disk. -/
theorem RecoveringOk.crash (h : RecoveringOk logs disk₀ r)
    (hlogs : ∀ tab g₀, disk₀ tab = some g₀ → ∃ m₀, TableLog logs tab g₀.numRecordsPerPage m₀) :
    RecoveringOk logs disk₀ (.start indexes logs r.disk r.ixFiles) := by
  refine ⟨List.suffix_refl _, fun _ h => absurd h Bool.false_ne_true, fun _ h => absurd h Bool.false_ne_true, ?_, ?_⟩
  · intro tab hg₀
    exact ⟨(h.absent tab hg₀).2, (h.absent tab hg₀).2⟩
  · intro tab g₀ hg₀
    obtain ⟨m₀, hlog⟩ := hlogs tab g₀ hg₀
    obtain ⟨f, g, hok⟩ := h.present tab g₀ hg₀
    exact ⟨g, g, .start hlog hok.disk hok.stored⟩

/-- **A step of recovery**, a crash included, keeps the invariant. -/
theorem RecoveringOk.step (h : RecoveringOk logs disk₀ r)
    (hlogs : ∀ tab g₀, disk₀ tab = some g₀ → ∃ m₀, TableLog logs tab g₀.numRecordsPerPage m₀)
    (hstep : Recovering.Step indexes logs r e r') : RecoveringOk logs disk₀ r' := by
  cases hstep with
  | round htodo hrun => exact h.round hlogs htodo hrun
  | writePage hf₀ hg₁ => exact h.writePage hf₀ hg₁
  | rebuildIndex | writeIndex =>
    refine ⟨h.todo, h.rebuilt, h.written, h.absent, ?_⟩
    intro tab g₀ hg₀
    obtain ⟨f, g, hok⟩ := h.present tab g₀ hg₀
    exact ⟨f, g, hok.of_same rfl rfl rfl⟩
  | rebuild htodo _ hre₀ hf₀ => exact h.rebuild htodo hre₀ hf₀
  | writeHeader hre hf₀ _ _ => exact h.writeHeader hre hf₀
  | crash _ => exact h.crash hlogs

theorem recoveringOk_start (hlogs : ∀ tab g₀, disk₀ tab = some g₀ → ∃ m₀, TableLog logs tab g₀.numRecordsPerPage m₀)
    (hpages : TablesOk disk₀) (hfirst : ∀ tab g₀, disk₀ tab = some g₀ → RM_FIRST_RECORD_PAGE ≤ g₀.numPages) :
    RecoveringOk logs disk₀ (.start indexes logs disk₀ ixFiles) := by
  refine ⟨List.suffix_refl _, fun _ h => absurd h Bool.false_ne_true, fun _ h => absurd h Bool.false_ne_true,
    fun tab hg₀ => ⟨hg₀, hg₀⟩, ?_⟩
  intro tab g₀ hg₀
  obtain ⟨m₀, hlog⟩ := hlogs tab g₀ hg₀
  exact ⟨g₀, g₀, .start hlog hg₀ ⟨hpages tab g₀ hg₀, rfl, hfirst tab g₀ hg₀, fun _ => rfl⟩⟩

/-- At the end the files are on disk as they are in memory, and their slots are recovered. -/
theorem RecoveringOk.finished (h : RecoveringOk logs disk₀ r) (hfin : r.Finished) : r.disk = r.tables ∧
    ∀ tab g₀, disk₀ tab = some g₀ → ∃ f, r.tables tab = some f ∧ f.PagesOk ∧ RM_FIRST_RECORD_PAGE ≤ f.numPages ∧
      ∀ rid, f.records rid = recoveredSlot logs tab rid (g₀.records rid) := by
  refine ⟨funext ?_, ?_⟩
  · intro tab
    cases hg₀ : disk₀ tab with
    | none => rw [(h.absent tab hg₀).1, (h.absent tab hg₀).2]
    | some g₀ =>
      obtain ⟨f, g, hok⟩ := h.present tab g₀ hg₀
      exact (h.written tab (hfin.written tab f hok.file)).2
  · intro tab g₀ hg₀
    obtain ⟨f, g, hok⟩ := h.present tab g₀ hg₀
    exact ⟨f, hok.file, hok.memory.pages, hok.memory.first, hok.memory_eq hfin.todo⟩

end Recovery

/-! ### Interrupted recovery -/

section Restarted

variable {s₀ s : Sys} {tr : List (Sys × Transaction.Event)} {r : Recovering} {rtr : List (Recovering × Recovering.Event)} {tab : String}
  {g₀ : RmFileHandle} {file : Bytes} {indexes : IndexNames} {ixFiles : String → Option IxFile}

theorem noOverlap_of_plain {tr : List (Sys × Transaction.Event)} (hinit : Init s₀) (htr : Trace Transaction.Step s₀ tr s)
    (hplain : ∀ x ∈ tr, Plain x.1 x.2) : ∀ x ∈ tr, NoOverlap x.1 x.2 := by
  intro x hx
  obtain ⟨P, R, rfl⟩ := List.append_of_mem hx
  have hok : PlainOk s₀ x.1 := htr.of_append.1.inv (fun y hy => hplain y (List.mem_append_left _ hy)) (plainOk_init hinit)
    fun ha hC hs => ha.step hC hs
  exact noOverlap_of_running hok.running

/-- The log of a run. -/
theorem RunOk.tableLog (h : RunOk s₀ s) (hg₀ : s.disk tab = some g₀) :
    (∃ m₀, TableLog s.log tab g₀.numRecordsPerPage m₀) ∧ g₀.PagesOk ∧ RM_FIRST_RECORD_PAGE ≤ g₀.numPages := by
  cases hf₀ : s₀.tables tab with
  | none =>
    rw [(h.absent tab hf₀).2] at hg₀
    cases hg₀
  | some f₀ =>
    obtain ⟨f, g, hf, hg⟩ := h.present tab f₀ hf₀
    obtain rfl := Option.some.inj (hg₀.symm.trans hg.file)
    refine ⟨⟨f₀.records, hf.changes.1, hf.changes.2, ?_⟩, hg.pages, hf.first.trans hg.header.ge⟩
    intro base hbase rid c hc
    have hentry : LogRecord.entry tab base = some (base.logTid, rid, c) := by
      cases base <;> simp_all [LogRecord.change, LogRecord.entry, LogRecord.logTid]
    rw [hg.per]
    exact hf.rids _ (List.mem_filterMap.mpr ⟨base, hbase, hentry⟩)

/-- What recovery, however often it is begun again, has come to. -/
theorem RunOk.recovering (h : RunOk s₀ s)
    (hrec : Trace (Recovering.Step indexes s.log) (.start indexes s.log s.disk ixFiles) rtr r) : RecoveringOk s.log s.disk r :=
  hrec.inv' (recoveringOk_start (fun _ _ hg₀ => (h.tableLog hg₀).1) (fun _ _ hg₀ => (h.tableLog hg₀).2.1)
    fun _ _ hg₀ => (h.tableLog hg₀).2.2) fun ha hstep => ha.step (fun _ _ hg₀ => (h.tableLog hg₀).1) hstep

/-- **Interrupted recovery.** The server crashes after a run, with a log file shorter than `2 ^ 31` bytes and index files that open,
and any number of times in the recovery that follows, at any time of it, with any of its pages on disk. No round and no call of
`rebuild_indexes` throws; the server starts again after a crash unless `rebuild_indexes` has destroyed an index file then and has not
written the header of the new one. When recovery is through at last, the tables on disk are those in
memory, and they have the records that `recover` makes of the disk of the first crash. -/
theorem recovery_restarted (hinit : Init s₀) (htr : Trace Transaction.Step s₀ tr s) (hno : ∀ x ∈ tr, NoOverlap x.1 x.2)
    (hfile : Holds file s.log) (hlen : file.length < 2 ^ 31) (hacc : ∀ x ∈ indexes, Accepted x.2)
    (hopen : openDb indexes ixFiles = true)
    (hrec : Trace (Recovering.Step indexes (readRecords file)) (.start indexes (readRecords file) s.disk ixFiles) rtr r) :
    (∀ task todo, r.todo = task :: todo → ∃ tables, task.run (readRecords file) r.tables = .ok tables) ∧
      (∀ task ixTodo, r.ixTodo = task :: ixTodo → ∃ ixFiles', task.run r.ixFiles = some ixFiles') ∧
      (openDb indexes r.ixFiles = true ↔ ¬ r.AmidIndex) ∧
      ∃ tables, recover file s.disk = .ok tables ∧
        (r.Finished → r.disk = r.tables ∧ ∀ tab, (r.tables tab).map records = (tables tab).map records) := by
  have hrunOk := runOk_run hinit htr hno
  have hstage : IxStage indexes r.ixFiles r.ixTodo :=
    hrec.inv' (I := fun r => IxStage indexes r.ixFiles r.ixTodo) (ixStage_start hopen) fun ha hstep => ha.step hacc hstep
  rw [hfile.readRecords hlen] at hrec ⊢
  have hok := hrunOk.recovering hrec
  obtain ⟨tables, hrun, hspec⟩ := hrunOk.recover hfile hlen
  refine ⟨?_, ?_, hstage.openDb_iff, tables, hrun, ?_⟩
  · intro task todo htodo
    obtain ⟨tables', hround, -⟩ := hok.run (fun _ _ hg₀ => (hrunOk.tableLog hg₀).1)
      (hok.todo.subset (htodo ▸ List.mem_cons_self))
    exact ⟨tables', hround⟩
  · intro task ixTodo htodo
    rw [htodo] at hstage
    obtain ⟨ixFiles', hcall, -⟩ := hstage.run hacc
    exact ⟨ixFiles', hcall⟩
  · intro hfin
    obtain ⟨hsame, hslots⟩ := hok.finished hfin
    refine ⟨hsame, ?_⟩
    intro tab
    cases hf₀ : s₀.tables tab with
    | none => rw [(hspec tab).1 hf₀, (hok.absent tab (hrunOk.absent tab hf₀).2).1]
    | some f₀ =>
      obtain ⟨f, g, hf, hg, hrecords⟩ := (hspec tab).2 f₀ hf₀
      obtain ⟨f', hf', -, -, hrecords'⟩ := hslots tab g hg.file
      rw [hf, hf', Option.map_some, Option.map_some]
      exact congrArg some (funext fun rid => (hrecords' rid).trans (hrecords rid).symm)

end Restarted

/-- The log of a transaction that updates a record. -/
def updateLog : List LogRecord := [.beginTxn 1, .update 1 "t" ⟨1, 0⟩ (filled 1) (filled 2)]

/-- The record has been updated on disk. -/
def updatedDisk : Tables :=
  update (serverWith oneFile).disk "t" (some (oneFile.setPage 1 ⟨RM_NO_PAGE, 1, some (filled 2) :: List.replicate 6 none⟩))

theorem run_update : ∃ tr s, Trace Transaction.Step (serverWith oneFile) tr s ∧ (∀ x ∈ tr, Plain x.1 x.2) ∧
    s.log = updateLog ∧ s.disk = updatedDisk := by
  have h₁ := Trace.nil.snoc (e := Event.beginTxn 1) (Step.beginTxn (s := serverWith oneFile) rfl)
  have h₂ := h₁.snoc (e := .lock 1 "t" .exclusive) (.lock rfl rfl)
  have h₃ := h₂.snoc (e := .updateLog 1 "t" ⟨1, 0⟩ (filled 2)) (.updateLog rfl List.mem_cons_self rfl rfl)
  have h₄ := h₃.snoc (e := .updateRecord 1) (.updateRecord rfl rfl rfl)
  have h₅ := h₄.snoc (e := .writePage "t" 1) (.writePage rfl rfl)
  refine ⟨_, _, h₅, ?_, rfl, rfl⟩
  refine forall_snoc (forall_snoc (forall_snoc (forall_snoc (forall_snoc (List.forall_mem_nil _) ?_) ?_) ?_) ?_) ?_
  case refine_5 =>
    refine ⟨fun _ h => (by cases h), ?_⟩
    intro tab p _ t rid buf ht
    by_cases h1 : t = 1
    · subst h1
      cases ht
    · simp [serverWith, h1] at ht
  all_goals exact ⟨fun _ h => (by cases h), fun _ _ h => (by cases h)⟩

theorem holds_updateLog : Holds (storedFile updateLog) updateLog := holds_storedFile (by decide +kernel)

theorem length_updateLog : (storedFile updateLog).length < 2 ^ 31 := by
  rw [length_storedFile]
  decide +kernel

/-- An index on an `INT` column. -/
def indexT : IndexNames := [("t_a.idx", [(.int, 4)])]

/-- Its file. -/
def indexFilesT : String → Option IxFile := fun name => if name = "t_a.idx" then some (.created [(.int, 4)]) else none

theorem accepted_indexT : ∀ x ∈ indexT, Accepted x.2 := fun x hx => by
  obtain rfl := List.mem_singleton.mp hx
  exact ⟨by decide, by decide⟩

theorem openDb_indexT {ixFiles : String → Option IxFile} (h : ixFiles = indexFilesT) : openDb indexT ixFiles = true := by
  refine openDb_iff.mpr ?_
  intro x hx
  have hacc := accepted_indexT x hx
  obtain rfl := List.mem_singleton.mp hx
  rw [h, show indexFilesT "t_a.idx" = some (.created [(.int, 4)]) from if_pos rfl]
  exact opens_created hacc

theorem recovery_update : ∃ rtr r,
    Trace (Recovering.Step indexT updateLog) (.start indexT updateLog updatedDisk indexFilesT) rtr r ∧
    rtr.map (·.2) = [.round, .round, .crash, .round, .round, .round, .round, .rebuildIndex, .rebuildIndex, .rebuildIndex,
      .rebuild "t", .writePage "t" 1, .writeHeader "t"] ∧ r.Finished := by
  have r₀ : Trace (Recovering.Step indexT updateLog) (.start indexT updateLog updatedDisk indexFilesT) [] _ := .nil
  have r₁ := r₀.snoc (e := .round) (.round rfl rfl)
  have r₂ := r₁.snoc (e := .round) (.round rfl rfl)
  have r₃ := r₂.snoc (e := .crash) (.crash (openDb_indexT rfl))
  have r₄ := r₃.snoc (e := .round) (.round rfl rfl)
  have r₅ := r₄.snoc (e := .round) (.round rfl rfl)
  have r₆ := r₅.snoc (e := .round) (.round rfl rfl)
  have r₇ := r₆.snoc (e := .round) (.round rfl rfl)
  have i₁ := r₇.snoc (e := .rebuildIndex) (.rebuildIndex rfl rfl rfl)
  have i₂ := i₁.snoc (e := .rebuildIndex) (.rebuildIndex rfl rfl rfl)
  have i₃ := i₂.snoc (e := .rebuildIndex) (.rebuildIndex rfl rfl rfl)
  have r₈ := i₃.snoc (e := .rebuild "t") (.rebuild rfl rfl rfl rfl)
  have r₉ := r₈.snoc (e := .writePage "t" 1) (.writePage rfl rfl)
  refine ⟨_, _, r₉.snoc (e := .writeHeader "t") (.writeHeader rfl rfl rfl ?_), ?_, ?_⟩
  · clear * -
    funext p
    by_cases hp : p = 1
    · subst hp
      rfl
    · have h1 : ∀ {f : RmFileHandle} {q : RmPage}, (f.setPage 1 q).pages p = f.pages p := Function.update_of_ne hp _ _
      have h2 : ∀ {f : RmFileHandle}, (f.relinkPage 1).pages p = f.pages p := by
        intro f
        simp only [relinkPage]
        split
        · exact h1
        · exact h1
      have h3 : ∀ {f : RmFileHandle}, f.numPages = 2 → f.rebuildFreePageList.pages p = f.pages p := by
        intro f hf
        unfold rebuildFreePageList
        rw [hf]
        exact h2
      exact h1.trans (h1.trans ((h3 rfl).trans (h1.trans (h1.trans h1))).symm)
  · rfl
  · refine ⟨rfl, rfl, ?_⟩
    intro tab f hf
    by_cases htab : tab = "t"
    · subst htab
      rfl
    · simp [htab, Recovering.start, updatedDisk, serverWith] at hf

/-- The server crashes again after the redo. -/
theorem recovery_restarted_update : ∃ tr s file rtr r, Trace Transaction.Step (serverWith oneFile) tr s ∧ Holds file s.log ∧
    Trace (Recovering.Step indexT (readRecords file)) (.start indexT (readRecords file) s.disk indexFilesT) rtr r ∧
    Recovering.Event.crash ∈ rtr.map (·.2) ∧ r.Finished ∧
    ∃ tables, recover file s.disk = .ok tables ∧ ∀ tab, (r.tables tab).map records = (tables tab).map records := by
  obtain ⟨tr, s, htr, hplain, hlog, hdisk⟩ := run_update
  obtain ⟨rtr, r, hrec, hevents, hfin⟩ := recovery_update
  have hfile : Holds (storedFile updateLog) s.log := by
    rw [hlog]
    exact holds_updateLog
  rw [← hdisk, ← hlog, ← hfile.readRecords length_updateLog] at hrec
  obtain ⟨-, -, -, tables, hrun, hagree⟩ := recovery_restarted oneFile_init htr (noOverlap_of_plain oneFile_init htr hplain)
    hfile length_updateLog accepted_indexT (openDb_indexT rfl) hrec
  exact ⟨tr, s, _, rtr, r, htr, hfile, hrec, by rw [hevents]; decide, hfin, tables, hrun, (hagree hfin).2⟩

end Rmdb.Recovery
