import Rmdb.Recovery.Restarted

/-!
# Epochs

An epoch is the time from one start of the server to the next one: a run, a crash, and recovery, with any
number of crashes of its own. `durable_iff`: at every start the tables hold the changes of the transactions
that have been committed in all epochs so far, and no others, exactly if the slots on disk are safe at every
crash of a run.

In an epoch no table or index is created or dropped, and the log file stays shorter than `2 ^ 31` bytes.
-/

namespace Rmdb.Recovery

open Lib Record RmFileHandle Transaction Change

/-- From a start of the server to the next one. -/
structure Epoch where
  /-- The server after the start. -/
  start : Sys
  /-- The log at the crash. -/
  log : List LogRecord
  /-- The log file. -/
  file : Bytes
  /-- The tables on disk at the crash. -/
  disk : Tables
  /-- The server after the next start. -/
  next : Sys

namespace Epoch

/-- The server, with these indexes, runs and crashes, and recovery comes through at last. In the run no executor appends to the log of
a table while a transaction that has written the table is between its release of the lock and its `ABORT` record. -/
structure Runs (indexes : IndexNames) (e : Epoch) : Prop where
  run : ∃ tr s, Trace Transaction.Step e.start tr s ∧ (∀ x ∈ tr, NoOverlap x.1 x.2) ∧ s.log = e.log ∧ s.disk = e.disk
  holds : Holds e.file e.log
  recovery : ∃ ixFiles tr r, openDb indexes ixFiles = true ∧
    Trace (Recovering.Step indexes (readRecords e.file)) (.start indexes (readRecords e.file) e.disk ixFiles) tr r ∧
    r.Finished ∧ e.next = r.started

/-- Every slot on disk is safe at the crash. -/
def Safe (e : Epoch) : Prop :=
  ∀ tab f₀ g, e.start.tables tab = some f₀ → e.disk tab = some g → ∀ rid, SlotSafe f₀ g e.log tab rid

end Epoch

/-- The epochs follow each other. -/
def Life (indexes : IndexNames) : Sys → List Epoch → Prop
  | _, [] => True
  | s, e :: es => e.start = s ∧ e.Runs indexes ∧ Life indexes e.next es

/-- The changes of a table by the transactions that have been committed in the epochs. -/
def history (tab : String) (es : List Epoch) : List (Rid × Change Bytes) := es.flatMap fun e => committedChanges tab e.log

/-- The tables are those of the start with the changes of all committed transactions, and no others. -/
def Durable (s₀ : Sys) (es : List Epoch) (tables : Tables) : Prop :=
  ∀ tab, (s₀.tables tab = none → tables tab = none) ∧ ∀ f₀, s₀.tables tab = some f₀ →
    ∃ f, tables tab = some f ∧ f.records = replayAt apply f₀.records (history tab es)

section Epochs

variable {indexes : IndexNames} {s s₀ : Sys} {e : Epoch} {es : List Epoch}

/-- What recovery makes of a slot is what the committed transactions made of it, exactly if the slot is safe. -/
theorem TableIn.recovered_iff_safe {f₀ f g : RmFileHandle} {tab : String} (h : TableIn f₀ s tab f) (rid : Rid) :
    recoveredSlot s.log tab rid (g.records rid) = replayAt apply f₀.records (committedChanges tab s.log) rid ↔
      SlotSafe f₀ g s.log tab rid := by
  have hvalid := h.changes.2.validTrace rid
  rw [changesAt_append] at hvalid
  rw [recoveredSlot, recovered, replayAt_apply]
  exact Change.recover_iff hvalid _

theorem RunOk.recovered_iff_safe (h : RunOk s₀ s) {tables : Tables} (hnone : ∀ tab, s.disk tab = none → tables tab = none)
    (hsome : ∀ tab g, s.disk tab = some g →
      ∃ f, tables tab = some f ∧ ∀ rid, f.records rid = recoveredSlot s.log tab rid (g.records rid)) :
    Recovered s₀ s.log tables ↔
      ∀ tab f₀ g, s₀.tables tab = some f₀ → s.disk tab = some g → ∀ rid, SlotSafe f₀ g s.log tab rid := by
  constructor
  · intro hgood tab f₀ g hf₀ hg rid
    obtain ⟨f, -, hf, -⟩ := h.present tab f₀ hf₀
    obtain ⟨f', hf', hrec⟩ := hsome tab g hg
    obtain ⟨f'', hf'', hreplay⟩ := (hgood tab).2 f₀ hf₀
    obtain rfl := Option.some.inj (hf'.symm.trans hf'')
    exact (hf.recovered_iff_safe rid).mp ((hrec rid).symm.trans (congrFun hreplay rid))
  · intro hsafe tab
    refine ⟨fun hf₀ => hnone tab (h.absent tab hf₀).2, ?_⟩
    intro f₀ hf₀
    obtain ⟨f, g, hf, hg⟩ := h.present tab f₀ hf₀
    obtain ⟨f', hf', hrec⟩ := hsome tab g hg.file
    exact ⟨f', hf', funext fun rid => (hrec rid).trans ((hf.recovered_iff_safe rid).mpr (hsafe tab f₀ g hf₀ hg.file rid))⟩

/-- **An epoch.** Recovery gives the tables what the committed transactions made of them exactly if every slot is safe. -/
theorem Epoch.Runs.recovered_iff (h : e.Runs indexes) (hlen : e.file.length < 2 ^ 31) (hinit : Init e.start) :
    Init e.next ∧ (Recovered e.start e.log e.next.tables ↔ e.Safe) := by
  obtain ⟨tr, s, htr, hno, hlog, hdisk⟩ := h.run
  obtain ⟨ixFiles, rtr, r, -, hrec, hfin, hnext⟩ := h.recovery
  have hrunOk := runOk_run hinit htr hno
  rw [h.holds.readRecords hlen, ← hlog, ← hdisk] at hrec
  have hok := hrunOk.recovering hrec
  obtain ⟨hsame, hslots⟩ := hok.finished hfin
  have htables : ∀ tab f, r.tables tab = some f → f.PagesOk ∧ RM_FIRST_RECORD_PAGE ≤ f.numPages := by
    intro tab f hf
    cases hg : s.disk tab with
    | none =>
      rw [(hok.absent tab hg).1] at hf
      cases hf
    | some g =>
      obtain ⟨f', hf', hpages, hfirst, -⟩ := hslots tab g hg
      obtain rfl := Option.some.inj (hf.symm.trans hf')
      exact ⟨hpages, hfirst⟩
  have hiff := hrunOk.recovered_iff_safe (fun tab hg => (hok.absent tab hg).1) fun tab g hg => by
    obtain ⟨f, hf, -, -, hrecords⟩ := hslots tab g hg
    exact ⟨f, hf, hrecords⟩
  constructor
  · rw [hnext]
    exact ⟨rfl, fun _ => rfl, fun _ => rfl, fun _ => rfl, fun _ => rfl, hsame, fun tab f hf => (htables tab f hf).2,
      fun tab f hf => (htables tab f hf).1⟩
  · rw [hlog, hdisk] at hiff
    rw [hnext]
    exact hiff

theorem history_append (tab : String) (es es' : List Epoch) : history tab (es ++ es') = history tab es ++ history tab es' :=
  List.flatMap_append

/-- One epoch more. -/
theorem Durable.append_iff {tables : Tables} (h : Durable s₀ es e.start.tables) :
    Durable s₀ (es ++ [e]) tables ↔ Recovered e.start e.log tables := by
  refine forall_congr' ?_
  intro tab
  have hlast : history tab [e] = committedChanges tab e.log := List.flatMap_singleton ..
  obtain ⟨hnone, hsome⟩ := h tab
  cases hf₀ : s₀.tables tab with
  | none => simp only [hnone hf₀, reduceCtorEq, false_implies, implies_true]
  | some f₀ =>
    obtain ⟨f₁, hf₁, hrec₁⟩ := hsome f₀ hf₀
    rw [hf₁]
    simp only [reduceCtorEq, false_implies, true_and, Option.some.injEq, forall_eq']
    rw [history_append, hlast, replayAt_append, hrec₁]

/-- **Durability.** In the life of a database whose log files stay shorter than `2 ^ 31` bytes, with any number of crashes,
during recovery too, the tables have at every start of the server the changes of exactly the transactions that have been committed
since the beginning, if and only if at every crash of a run all slots on disk are safe. -/
theorem durable_iff (hinit : Init s₀) (h : Life indexes s₀ es) (hlen : ∀ e ∈ es, e.file.length < 2 ^ 31) :
    (∀ es₁ e es₂, es = es₁ ++ e :: es₂ → Durable s₀ (es₁ ++ [e]) e.next.tables) ↔ ∀ e ∈ es, e.Safe := by
  have hlife : ∀ {s : Sys} (past : List Epoch), Init s → Durable s₀ past s.tables → Life indexes s es →
      ((∀ es₁ e es₂, es = es₁ ++ e :: es₂ → Durable s₀ (past ++ es₁ ++ [e]) e.next.tables) ↔ ∀ e ∈ es, e.Safe) := by
    clear h
    induction es with
    | nil =>
      intro s past _ _ _
      exact iff_of_true (fun es₁ e es₂ h => absurd h (by simp)) (List.forall_mem_nil _)
    | cons e es ih =>
      rintro s past hs hpast ⟨rfl, hruns, hlife⟩
      obtain ⟨hshort, hlen⟩ := List.forall_mem_cons.mp hlen
      obtain ⟨hnext, hiff⟩ := hruns.recovered_iff hshort hs
      rw [← hpast.append_iff] at hiff
      have hrest := fun hdurable => ih hlen (past ++ [e]) hnext hdurable hlife
      rw [List.forall_mem_cons, ← hiff]
      constructor
      · intro hall
        have hfirst : Durable s₀ (past ++ [e]) e.next.tables := by
          have := hall [] e es rfl
          rwa [List.append_nil] at this
        refine ⟨hfirst, (hrest hfirst).mp ?_⟩
        intro es₁ e' es₂ heq
        rw [List.append_assoc past, List.singleton_append]
        exact hall (e :: es₁) e' es₂ (by rw [heq, List.cons_append])
      · rintro ⟨hfirst, hsafe⟩ es₁ e' es₂ heq
        cases es₁ with
        | nil =>
          obtain ⟨rfl, -⟩ := List.cons.inj heq
          rwa [List.append_nil]
        | cons e₁ es₁ =>
          obtain ⟨rfl, rfl⟩ := List.cons.inj heq
          have := (hrest hfirst).mpr hsafe es₁ e' es₂ rfl
          rwa [List.append_assoc past, List.singleton_append] at this
  exact hlife [] hinit (fun tab => ⟨id, fun f₀ hf₀ => ⟨f₀, hf₀, rfl⟩⟩) h

/-- The slots are safe at the crash of a run without rollbacks, in which an `INSERT` and its log append are one step for the disk. -/
theorem safe_of_no_rollback {tr : List (Sys × Transaction.Event)} (hinit : Init e.start)
    (htr : Trace Transaction.Step e.start tr s) (hplain : ∀ x ∈ tr, Plain x.1 x.2) (hlog : s.log = e.log) (hdisk : s.disk = e.disk) :
    e.Safe := by
  have hok : PlainOk e.start s := htr.inv hplain (plainOk_init hinit) fun ha hC hs => ha.step hC hs
  intro tab f₀ g hf₀ hg rid
  rw [← hdisk] at hg
  rw [← hlog]
  obtain ⟨f, -, hf, -⟩ := hok.runOk.present tab f₀ hf₀
  obtain ⟨A, ⟨B, hAB⟩, hvisited⟩ := hok.visited tab f₀ g hf₀ hg rid
  refine (hf.recovered_iff_safe rid).mp ?_
  exact recovered_slot hf hok.aborted hAB.symm hvisited

end Epochs

/-- The life of a database in which a transaction has not been committed at the crash. -/
theorem durable_iff_update : ∃ e : Epoch, Life indexT (serverWith oneFile) [e] ∧
    Durable (serverWith oneFile) [e] e.next.tables := by
  obtain ⟨tr, s, htr, hplain, hlog, hdisk⟩ := run_update
  obtain ⟨rtr, r, hrec, -, hfin⟩ := recovery_update
  rw [← holds_updateLog.readRecords length_updateLog] at hrec
  have hlife : Life indexT (serverWith oneFile) [⟨serverWith oneFile, updateLog, storedFile updateLog, updatedDisk, r.started⟩] :=
    ⟨rfl, ⟨⟨tr, s, htr, noOverlap_of_plain oneFile_init htr hplain, hlog, hdisk⟩, holds_updateLog,
      _, rtr, r, openDb_indexT rfl, hrec, hfin, rfl⟩, trivial⟩
  refine ⟨_, hlife, (durable_iff oneFile_init hlife ?_).mpr ?_ [] _ [] rfl⟩
  · intro e he
    obtain rfl := List.mem_singleton.mp he
    exact length_updateLog
  · intro e he
    obtain rfl := List.mem_singleton.mp he
    exact safe_of_no_rollback oneFile_init htr hplain hlog hdisk

end Rmdb.Recovery
