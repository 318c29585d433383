import Rmdb.Recovery.Crash

/-!
# Tables that are created and dropped

`SmManager::create_table` and `drop_table` between the steps of the transactions. They are
not logged and take no lock; the catalog and the new file go to disk at once. The log
names tables by their names, and it is truncated only by the next recovery.

So the log records of a table that has been dropped are replayed on a table that is
created later under its name: a record of the dropped table can come back
(`recover_recreated_fails`). If no table is created under a name that the log mentions,
and the log file is shorter than `2 ^ 31` bytes, recovery gives every table what the committed
transactions have made of it since it was created (`recover_since_create`).

Here no statement fails and nothing is rolled back, and the crash comes when no `INSERT` is
between its change and its log record. Pages are written at any time, in the middle of an
`INSERT` too.
-/

namespace Rmdb.Recovery

open Lib Record RmFileHandle Transaction Change

/-- The server and the history of its tables, which no step depends on. -/
structure History where
  /-- The server. -/
  sys : Sys
  /-- The file of every table when it was created, or at the start. -/
  base : Tables
  /-- How many records the log had then. -/
  born : String → ℕ

/-- What happens. -/
inductive DdlEvent where
  /-- A step of a transaction, or a page is written. -/
  | dml (e : Event)
  /-- `create_table`. -/
  | createTable (tab : String) (recordSize : ℤ)
  /-- `drop_table`. -/
  | dropTable (tab : String)

open Function (update)

/-- The steps of the server with its tables. -/
inductive DdlStep (h : History) : DdlEvent → History → Prop where
  /-- A step of a transaction, or a page is written. -/
  | dml {e : Event} {s : Sys} : Step h.sys e s → DdlStep h (.dml e) { h with sys := s }
  /-- A table is created. Its file may have the descriptor of a dropped one, and with it the queue of its locks. -/
  | createTable {tab : String} {recordSize : ℤ} {f : RmFileHandle} {queue : Queue} : h.sys.tables tab = none →
      createFile recordSize = .ok f → (queue = h.sys.locks tab ∨ queue = []) →
      DdlStep h (.createTable tab recordSize) ⟨{ h.sys with
        tables := update h.sys.tables tab (some f)
        disk := update h.sys.disk tab (some f)
        locks := update h.sys.locks tab queue }, update h.base tab (some f), update h.born tab h.sys.log.length⟩
  /-- A table is dropped, while no executor is at work on it. -/
  | dropTable {tab : String} {f : RmFileHandle} : h.sys.tables tab = some f → (∀ t, (h.sys.pc t).tab ≠ some tab) →
      DdlStep h (.dropTable tab) ⟨{ h.sys with
        tables := update h.sys.tables tab none
        disk := update h.sys.disk tab none }, update h.base tab none, h.born⟩

/-- The start: no table has been created since the log is empty. -/
def startOf (s₀ : Sys) : History := ⟨s₀, s₀.tables, fun _ => 0⟩

/-- No statement fails, and nothing is rolled back. -/
def Completes (e : DdlEvent) : Prop := ∀ t, e ≠ .dml (.abort t) ∧ e ≠ .dml (.insertFail t)

/-- A table is created only under a name that the log does not mention. -/
def FreshName (h : History) (e : DdlEvent) : Prop :=
  ∀ tab recordSize, e = .createTable tab recordSize → entries tab h.sys.log = []

/-- The changes of the committed transactions to a table since it was created. -/
def committedSince (h : History) (tab : String) : List (Rid × Change Bytes) :=
  changesOf (fun t => !(t ∈ committedTxns h.sys.log && t ∉ abortedTxns h.sys.log)) tab (h.sys.log.drop (h.born tab))

/-- The tables that exist hold exactly what the committed transactions have made of them since they were created. -/
def RecoveredSince (h : History) (tables : Tables) : Prop :=
  ∀ tab, (h.base tab = none → tables tab = none) ∧ ∀ f₀, h.base tab = some f₀ →
    ∃ f, tables tab = some f ∧ f.records = replayAt apply f₀.records (committedSince h tab)

/-! ### Slots on disk -/

/-- Every slot on disk is in a state it went through, or has a record that an `INSERT` is about to log. -/
def VisitedOrAhead (f₀ g : RmFileHandle) (s : Sys) (tab : String) : Prop :=
  ∀ rid, (∃ A, A <+: changesAt rid ((entries tab s.log).map Prod.snd) ∧ g.records rid = replay apply (f₀.records rid) A) ∨
    ∃ t buf, s.pc t = .inserted tab rid buf ∧ g.records rid = some buf

section Steps

variable {s s' : Sys} {e : Event} {tab : String} {f₀ f g : RmFileHandle}

/-- An `INSERT` that is ahead of the log stays so until it appends to the log or fails. -/
theorem step_inserted (h : Step s e s') {t : TxnId} {rid : Rid} {buf : Bytes} (ht : s.pc t = .inserted tab rid buf) :
    s'.pc t = .inserted tab rid buf ∨ s'.log = s.log ++ [.insert t tab rid buf] ∨ e = .insertFail t := by
  by_cases htxn : e.txn = some t
  · cases h with
    | insertLog hpc =>
      obtain rfl := Option.some.inj htxn
      obtain ⟨rfl, rfl, rfl⟩ := Pc.inserted.inj (ht.symm.trans hpc)
      exact .inr (.inl rfl)
    | insertFail =>
      obtain rfl := Option.some.inj htxn
      exact .inr (.inr rfl)
    | lock | undo | unlock | commitAgain => exact .inl ht
    | writePage => cases htxn
    | beginTxn hpc | insertRecord hpc | deleteLog hpc | deleteRecord hpc | updateLog hpc | updateRecord hpc | commit hpc | abort hpc
    | finish hpc | abortLog hpc =>
      obtain rfl := Option.some.inj htxn
      cases ht.symm.trans hpc
  · exact .inl ((h.other htxn).1.trans ht)

theorem changesAt_insert {log : List LogRecord} {t : TxnId} {rid : Rid} {buf : Bytes} :
    changesAt rid ((entries tab (log ++ [.insert t tab rid buf])).map Prod.snd) =
      changesAt rid ((entries tab log).map Prod.snd) ++ [.insert buf] := by
  rw [entries_concat]
  simp [LogRecord.entry, changesAt]

theorem VisitedOrAhead.step (h : VisitedOrAhead f₀ g s tab) (hstep : Step s e s') (hfail : ∀ t, e ≠ .insertFail t) :
    VisitedOrAhead f₀ g s' tab := by
  intro rid
  rcases h rid with ⟨A, hA, hrec⟩ | ⟨t, buf, ht, hrec⟩
  · obtain ⟨B, hB⟩ := hstep.log_prefix
    refine Or.inl ⟨A, hA.trans ?_, hrec⟩
    rw [← hB, entries_append, List.map_append, changesAt_append]
    exact List.prefix_append ..
  · rcases step_inserted hstep ht with ht' | hlog | hfailed
    · exact Or.inr ⟨t, buf, ht', hrec⟩
    · refine Or.inl ⟨_, List.prefix_refl _, ?_⟩
      rw [hlog, changesAt_insert, replay_append, hrec]
      rfl
    · exact absurd hfailed (hfail t)

/-- A slot in the buffer pool. -/
theorem TableIn.visitedOrAhead (h : TableIn f₀ s tab f) (hpc : ∀ t, s.pc t ≠ .aborting) (hab : abortedTxns s.log = []) :
    VisitedOrAhead f₀ f s tab := by
  intro rid
  by_cases hins : ∃ t buf, s.pc t = .inserted tab rid buf
  · obtain ⟨t, buf, ht⟩ := hins
    obtain ⟨X, U, V, W, t₀, hist⟩ := h.hist
    refine Or.inr ⟨t, buf, ht, ?_⟩
    rw [(hist.inserted t rid buf ht).2, Function.update_self]
  · refine Or.inl (h.visited hpc hab fun t rid₀ buf ht hrid => hins ⟨t, buf, ?_⟩)
    rw [ht, hrid]

/-- A page goes to disk. -/
theorem VisitedOrAhead.setPage {p : ℤ} (h : VisitedOrAhead f₀ g s tab) (hf : VisitedOrAhead f₀ f s tab)
    (hper : g.numRecordsPerPage = f.numRecordsPerPage) (hnum : g.numPages ≤ f.numPages) :
    VisitedOrAhead f₀ (g.setPage p (f.pages p)) s tab := by
  intro rid
  rcases records_setPage (p := p) hper hnum rid with heq | ⟨-, heq⟩
  · rw [heq]
    exact h rid
  · rw [heq]
    exact hf rid

end Steps

/-! ### Runs -/

/-- A server that had the files `base`. -/
def hadFiles (base : Tables) : Sys := { freshServer with tables := base }

/-- What holds in every state of such a run. -/
structure DdlOk (h : History) : Prop where
  runOk : RunOk (hadFiles h.base) h.sys
  running : ∀ t, h.sys.pc t ≠ .aborting
  aborted : abortedTxns h.sys.log = []
  visited : ∀ tab f₀ g, h.base tab = some f₀ → h.sys.disk tab = some g → VisitedOrAhead f₀ g h.sys tab
  /-- The log did not mention a table when it was created. -/
  born : ∀ tab, h.base tab ≠ none → h.born tab ≤ h.sys.log.length ∧ entries tab (h.sys.log.take (h.born tab)) = []
  /-- What can be rolled back is in the log. -/
  logged : ∀ t, ∀ w ∈ h.sys.writeSet t, entries w.tabName h.sys.log ≠ []
  /-- An executor is at work on a table that exists. -/
  pending : ∀ t tab, (h.sys.pc t).tab = some tab → h.sys.tables tab ≠ none

section Runs

variable {h h' : History}

theorem ddlOk_start {s₀ : Sys} (hinit : Init s₀) : DdlOk (startOf s₀) where
  runOk := by
    have hrun := runOk_init hinit
    exact ⟨hrun.sane, hrun.absent, hrun.present⟩
  running t := by simp [startOf, hinit.pc]
  aborted := by simp [startOf, hinit.log, abortedTxns]
  visited tab f₀ g hf₀ hg rid := by
    simp only [startOf, hinit.disk] at hf₀ hg
    obtain rfl := Option.some.inj (hf₀.symm.trans hg)
    exact Or.inl ⟨[], List.nil_prefix, rfl⟩
  born tab _ := by simp [startOf, entries]
  logged t w hw := by
    simp only [startOf, hinit.writeSet] at hw
    cases hw
  pending t tab ht := by
    simp only [startOf, hinit.pc] at ht
    cases ht

theorem logged_step {s s' : Sys} {e : Event} (hlogged : ∀ t, ∀ w ∈ s.writeSet t, entries w.tabName s.log ≠ [])
    (hstep : Step s e s') (t : TxnId) (w : WriteRecord) (hw : w ∈ s'.writeSet t) : entries w.tabName s'.log ≠ [] := by
  by_cases hold : w ∈ s.writeSet t
  · obtain ⟨B, hB⟩ := hstep.log_prefix
    rw [← hB, entries_append]
    exact List.append_ne_nil_of_left_ne_nil (hlogged t w hold) _
  · obtain ⟨-, x, hx, -⟩ := hstep.new_write hw hold
    exact List.ne_nil_of_mem hx

theorem pending_step {s s' : Sys} {e : Event} (hpending : ∀ t tab, (s.pc t).tab = some tab → s.tables tab ≠ none)
    (hstep : Step s e s') (t : TxnId) (tab : String) (ht : (s'.pc t).tab = some tab) : s'.tables tab ≠ none := by
  rcases hstep.operation ht with hold | ⟨-, -, htable⟩
  · exact hstep.tables_ne_none (hpending t tab hold)
  · exact hstep.tables_ne_none htable

/-- **A step of a transaction** keeps the invariant. -/
theorem DdlOk.dml {e : Event} {s : Sys} (hok : DdlOk h) (hstep : Step h.sys e s) (hc : Completes (.dml e)) :
    DdlOk { h with sys := s } where
  runOk := hok.runOk.step (noOverlap_of_running hok.running) hstep
  running := running_step hok.running (fun t he => (hc t).1 (by rw [he])) hstep
  aborted := aborted_step hok.running hok.aborted hstep
  visited tab f₀ g' hf₀ hg' := by
    obtain ⟨f, g, hf, hg⟩ := hok.runOk.present tab f₀ hf₀
    have hvisited := hok.visited tab f₀ g hf₀ hg.file
    obtain ⟨g₁, hg₁, hcase⟩ := hg.step hf hstep
    obtain rfl := Option.some.inj (hg'.symm.trans hg₁.file)
    refine VisitedOrAhead.step ?_ hstep fun t he => (hc t).2 (by rw [he])
    rcases hcase with rfl | ⟨p, rfl, rfl⟩
    · exact hvisited
    · exact hvisited.setPage (hf.visitedOrAhead hok.running hok.aborted) (hg.per.trans hf.per.symm)
        (hg.header.le.trans hf.grows)
  born tab htab := by
    obtain ⟨B, hB⟩ := hstep.log_prefix
    obtain ⟨hle, hnil⟩ := hok.born tab htab
    simp only [← hB]
    rw [List.take_append_of_le_length hle]
    exact ⟨hle.trans (by simp), hnil⟩
  logged := logged_step hok.logged hstep
  pending := pending_step hok.pending hstep

/-- A table that a step leaves alone. -/
theorem TableIn.other {f₀ f : RmFileHandle} {s s' : Sys} {tab : String} (hf : TableIn f₀ s tab f)
    (htables : s'.tables tab = s.tables tab) (hlog : s'.log = s.log) (hws : s'.writeSet = s.writeSet)
    (hpc : s'.pc = s.pc) : TableIn f₀ s' tab f := by
  refine hf.frame htables (by rw [hlog]; exact SameLog.refl ..) (fun t' => by rw [hws]) ?_
  intro t'
  rw [hpc]
  exact Or.inl rfl

theorem createFile_inv {recordSize : ℤ} {f : RmFileHandle} (hf : createFile recordSize = .ok f) :
    f.PagesOk ∧ RM_FIRST_RECORD_PAGE ≤ f.numPages ∧ f.records = fun _ => none := by
  have hsize : 1 ≤ recordSize ∧ recordSize ≤ RM_MAX_RECORD_SIZE := by
    unfold createFile at hf
    split at hf
    · cases hf
    · omega
  obtain ⟨f', hf', hok, hrecords⟩ := createFile_ok hsize.1 hsize.2
  obtain rfl := Except.ok.inj (hf.symm.trans hf')
  exact ⟨hok.pages, hok.first, hrecords⟩

/-- **A table that is created** starts a history of its own. -/
theorem DdlOk.createTable {tab : String} {recordSize : ℤ} {f : RmFileHandle} {queue : Queue} (hok : DdlOk h)
    (hnone : h.sys.tables tab = none) (hf : createFile recordSize = .ok f)
    (hqueue : queue = h.sys.locks tab ∨ queue = []) (hfresh : entries tab h.sys.log = []) :
    DdlOk ⟨{ h.sys with
      tables := update h.sys.tables tab (some f)
      disk := update h.sys.disk tab (some f)
      locks := update h.sys.locks tab queue }, update h.base tab (some f), update h.born tab h.sys.log.length⟩ := by
  obtain ⟨hpages, hfirst, -⟩ := createFile_inv hf
  have hpc : ∀ t, (h.sys.pc t).tab ≠ some tab := fun t ht => hok.pending t tab ht hnone
  have hws : ∀ t, ∀ w ∈ h.sys.writeSet t, w.tabName ≠ tab := fun t w hw htab => hok.logged t w hw (htab ▸ hfresh)
  have hsane := hok.runOk.sane
  -- nobody has anything to do with the name
  have hlocks : ∀ tab', tab' ≠ tab → update h.sys.locks tab queue tab' = h.sys.locks tab' := fun tab' hne =>
    Function.update_of_ne hne ..
  refine ⟨⟨⟨?_, ?_, hsane.quiet, ?_, hsane.ended, ?_⟩, ?_, ?_⟩, hok.running, hok.aborted, ?_, ?_, hok.logged, ?_⟩
  · intro tab'
    by_cases htab : tab' = tab
    · subst htab
      simp only [Function.update_self]
      rcases hqueue with rfl | rfl
      · exact hsane.queues tab'
      · exact queueOk_nil
    · simp only [hlocks tab' htab]
      exact hsane.queues tab'
  · intro t tab' ht
    have hne : tab' ≠ tab := fun htab => hpc t (htab ▸ ht)
    simp only [hlocks tab' hne]
    exact hsane.active t tab' ht
  · intro t w hw
    simp only [hlocks w.tabName (hws t w hw)]
    exact hsane.holds t w hw
  · intro t tab' hw
    have hne : tab' ≠ tab := by
      rintro rfl
      obtain ⟨x, hx, -⟩ := hw
      rw [show entries tab' h.sys.log = [] from hfresh] at hx
      cases hx
    simp only [hlocks tab' hne]
    exact hsane.writes t tab' hw
  · intro tab' hbase
    by_cases htab : tab' = tab
    · subst htab
      simp [hadFiles] at hbase
    · simp only [hadFiles, Function.update_of_ne htab] at hbase ⊢
      exact hok.runOk.absent tab' hbase
  · intro tab' f₀ hbase
    by_cases htab : tab' = tab
    · subst htab
      simp only [hadFiles, Function.update_self, Option.some.injEq] at hbase
      subst hbase
      refine ⟨f, f, tableIn_fresh (Function.update_self ..) hpages hfirst hfresh ?_ hpc, Function.update_self .., hpages, rfl, rfl⟩
      intro t
      exact List.filter_eq_nil_iff.mpr fun w hw => by simpa using hws t w hw
    · simp only [hadFiles, Function.update_of_ne htab] at hbase
      obtain ⟨f₁, g₁, hf₁, hg₁⟩ := hok.runOk.present tab' f₀ hbase
      exact ⟨f₁, g₁, TableIn.other hf₁ (Function.update_of_ne htab ..) rfl rfl rfl,
        (Function.update_of_ne htab ..).trans hg₁.file, hg₁.pages, hg₁.per, hg₁.header⟩
  · intro tab' f₀ g hbase hdisk
    by_cases htab : tab' = tab
    · subst htab
      simp only [Function.update_self, Option.some.injEq] at hbase hdisk
      subst hbase hdisk
      exact fun rid => Or.inl ⟨[], List.nil_prefix, rfl⟩
    · simp only [Function.update_of_ne htab] at hbase hdisk
      exact hok.visited tab' f₀ g hbase hdisk
  · intro tab' hbase
    by_cases htab : tab' = tab
    · subst htab
      simp only [Function.update_self]
      exact ⟨le_refl _, by rw [List.take_length]; exact hfresh⟩
    · simp only [Function.update_of_ne htab] at hbase ⊢
      exact hok.born tab' hbase
  · intro t tab' ht
    have hne : tab' ≠ tab := fun htab => hpc t (htab ▸ ht)
    simp only [Function.update_of_ne hne]
    exact hok.pending t tab' ht

/-- **A table that is dropped** is gone. -/
theorem DdlOk.dropTable {tab : String} (hok : DdlOk h) (hpc : ∀ t, (h.sys.pc t).tab ≠ some tab) :
    DdlOk ⟨{ h.sys with
      tables := update h.sys.tables tab none
      disk := update h.sys.disk tab none }, update h.base tab none, h.born⟩ := by
  have hsane := hok.runOk.sane
  refine ⟨⟨⟨hsane.queues, hsane.active, hsane.quiet, hsane.holds, hsane.ended, hsane.writes⟩, ?_,
    ?_⟩, hok.running, hok.aborted, ?_, ?_, hok.logged, ?_⟩
  · intro tab' hbase
    by_cases htab : tab' = tab
    · subst htab
      simp
    · simp only [hadFiles, Function.update_of_ne htab] at hbase ⊢
      exact hok.runOk.absent tab' hbase
  · intro tab' f₀ hbase
    by_cases htab : tab' = tab
    · subst htab
      simp [hadFiles] at hbase
    · simp only [hadFiles, Function.update_of_ne htab] at hbase
      obtain ⟨f₁, g₁, hf₁, hg₁⟩ := hok.runOk.present tab' f₀ hbase
      exact ⟨f₁, g₁, TableIn.other hf₁ (Function.update_of_ne htab ..) rfl rfl rfl,
        (Function.update_of_ne htab ..).trans hg₁.file, hg₁.pages, hg₁.per, hg₁.header⟩
  · intro tab' f₀ g hbase hdisk
    by_cases htab : tab' = tab
    · subst htab
      simp at hbase
    · simp only [Function.update_of_ne htab] at hbase hdisk
      exact hok.visited tab' f₀ g hbase hdisk
  · intro tab' hbase
    by_cases htab : tab' = tab
    · subst htab
      simp at hbase
    · simp only [Function.update_of_ne htab] at hbase
      exact hok.born tab' hbase
  · intro t tab' ht
    have hne : tab' ≠ tab := fun htab => hpc t (htab ▸ ht)
    simp only [Function.update_of_ne hne]
    exact hok.pending t tab' ht

/-- **One step.** -/
theorem DdlOk.step {e : DdlEvent} (hok : DdlOk h) (hstep : DdlStep h e h') (hc : Completes e) (hfresh : FreshName h e) :
    DdlOk h' := by
  cases hstep with
  | dml hs => exact hok.dml hs hc
  | createTable hnone hf hqueue => exact hok.createTable hnone hf hqueue (hfresh _ _ rfl)
  | dropTable _ hpc => exact hok.dropTable hpc

/-- **Recovery with tables that come and go.** In a run without failed statements and rollbacks, in which no table is
created under a name that the log mentions, and which ends when no `INSERT` is ahead of the log and the log file is shorter than
`2 ^ 31` bytes, recovery does not throw and leaves the tables that exist with exactly what the committed transactions have made of
them since they were created. -/
theorem recover_since_create {s₀ : Sys} {tr : List (History × DdlEvent)} {file : Bytes} (hinit : Init s₀)
    (htr : Trace DdlStep (startOf s₀) tr h) (hc : ∀ x ∈ tr, Completes x.2) (hfresh : ∀ x ∈ tr, FreshName x.1 x.2)
    (hend : ∀ t tab rid buf, h.sys.pc t ≠ .inserted tab rid buf) (hfile : Holds file h.sys.log) (hlen : file.length < 2 ^ 31) :
    ∃ tables, recover file h.sys.disk = .ok tables ∧ RecoveredSince h tables := by
  have hok : DdlOk h := htr.inv (C := fun a e => Completes e ∧ FreshName a e) (fun x hx => ⟨hc x hx, hfresh x hx⟩)
    (ddlOk_start hinit) fun ha hC hs => ha.step hs hC.1 hC.2
  obtain ⟨tables, hrun, hspec⟩ := hok.runOk.recover hfile hlen
  refine ⟨tables, hrun, fun tab => ⟨(hspec tab).1, ?_⟩⟩
  intro f₀ hf₀
  obtain ⟨f', g, hf', hg, hrec⟩ := (hspec tab).2 f₀ hf₀
  obtain ⟨f, -, hf, -⟩ := hok.runOk.present tab f₀ hf₀
  have hsince : committedSince h tab = committedChanges tab h.sys.log := by
    have hnil := (hok.born tab (by rw [hf₀]; simp)).2
    have hentries : entries tab h.sys.log = entries tab (h.sys.log.drop (h.born tab)) := by
      conv_lhs => rw [← List.take_append_drop (h.born tab) h.sys.log, entries_append, hnil, List.nil_append]
    rw [committedSince, committedChanges, changesOf_eq, changesOf_eq, hentries]
  refine ⟨f', hf', funext ?_⟩
  intro rid
  obtain ⟨A, ⟨B, hAB⟩, hvisited⟩ : ∃ A, A <+: changesAt rid ((entries tab h.sys.log).map Prod.snd) ∧
      g.records rid = replay apply (f₀.records rid) A := by
    rcases hok.visited tab f₀ g hf₀ hg.file rid with hA | ⟨t, buf, ht, -⟩
    · exact hA
    · exact absurd ht (hend t tab rid buf)
  rw [hsince, hrec]
  exact recovered_slot hf hok.aborted hAB.symm hvisited

end Runs

/-- One transaction alone, which is between two operations. -/
theorem alone_tab {pc : TxnId → Pc} {tab : String} (h1 : (pc 1).tab = none) (h : ∀ t, t ≠ 1 → pc t = .idle) (t : TxnId) :
    (pc t).tab ≠ some tab := by
  by_cases ht : t = 1
  · rw [ht, h1]
    nofun
  · rw [h t ht]
    nofun

theorem alone_inserted {pc : TxnId → Pc} (h1 : (pc 1).tab = none) (h : ∀ t, t ≠ 1 → pc t = .idle) (t : TxnId)
    (tab : String) (rid : Rid) (buf : Bytes) : pc t ≠ .inserted tab rid buf := by
  intro ht
  have htab : (pc t).tab = some tab := by
    rw [ht]
    rfl
  exact alone_tab h1 h t htab

/-- Table `u` is created, transaction `1` inserts a record into it and commits, and table `t` is dropped. -/
theorem recover_since_create_inserted : ∃ tr h file, Trace DdlStep (startOf freshServer) tr h ∧ Holds file h.sys.log ∧
    LogRecord.insert 1 "u" ⟨1, 0⟩ (filled 1) ∈ h.sys.log ∧ h.base "u" = some emptyFile ∧ h.base "t" = none ∧
      ∃ tables, recover file h.sys.disk = .ok tables ∧ RecoveredSince h tables := by
  have h₁ := Trace.nil.snoc (e := DdlEvent.createTable "u" 512) (DdlStep.createTable (h := startOf freshServer)
    rfl rfl (Or.inr rfl))
  have h₂ := h₁.snoc (e := .dml (.beginTxn 1)) (.dml (.beginTxn rfl))
  have h₃ := h₂.snoc (e := .dml (.lock 1 "u" .exclusive)) (.dml (.lock rfl rfl))
  have h₄ := h₃.snoc (e := .dml (.insertRecord 1 "u" (filled 1))) (.dml (.insertRecord rfl List.mem_cons_self rfl rfl))
  have h₅ := h₄.snoc (e := .dml (.insertLog 1)) (.dml (.insertLog rfl))
  have h₆ := h₅.snoc (e := .dml (.commit 1)) (.dml (.commit rfl))
  have h₇ := h₆.snoc (e := .dropTable "t") (.dropTable rfl (alone_tab rfl fun t ht => by
    simp [startOf, serverWith, ht]))
  have hfile := holds_storedFile
    (show ∀ r ∈ ([.beginTxn 1, .insert 1 "u" ⟨1, 0⟩ (filled 1), .commit 1] : List LogRecord), Storable r by decide +kernel)
  refine ⟨_, _, _, h₇, hfile, List.mem_append_left _ (List.mem_append_right _ (List.mem_singleton.mpr rfl)), rfl, rfl,
    recover_since_create freshServer_init h₇ ?_ ?_
    (alone_inserted rfl fun t ht => by simp [startOf, serverWith, ht]) hfile (by
      rw [length_storedFile]
      decide +kernel)⟩
  · refine forall_snoc (forall_snoc (forall_snoc (forall_snoc (forall_snoc (forall_snoc (forall_snoc (List.forall_mem_nil _)
      ?_) ?_) ?_) ?_) ?_) ?_) ?_
    all_goals exact fun _ => ⟨fun h => (by cases h), fun h => (by cases h)⟩
  · refine forall_snoc (forall_snoc (forall_snoc (forall_snoc (forall_snoc (forall_snoc (forall_snoc (List.forall_mem_nil _)
      ?_) ?_) ?_) ?_) ?_) ?_) ?_
    case refine_1 => exact fun _ _ _ => rfl
    all_goals exact fun _ _ h => by cases h

/-- Transaction `1` inserts a record into table `t` and commits. The table is dropped and created again: recovery brings
the record back. -/
theorem recover_recreated_fails : ¬ ∀ s₀ tr h file, Init s₀ → Trace DdlStep (startOf s₀) tr h → (∀ x ∈ tr, Completes x.2) →
    (∀ t tab rid buf, h.sys.pc t ≠ .inserted tab rid buf) → Holds file h.sys.log →
    ∃ tables, recover file h.sys.disk = .ok tables ∧ RecoveredSince h tables := by
  intro hall
  have h₁ := Trace.nil.snoc (e := DdlEvent.dml (.beginTxn 1)) (DdlStep.dml (h := startOf freshServer) (.beginTxn rfl))
  have h₂ := h₁.snoc (e := .dml (.lock 1 "t" .exclusive)) (.dml (.lock rfl rfl))
  have h₃ := h₂.snoc (e := .dml (.insertRecord 1 "t" (filled 1))) (.dml (.insertRecord rfl List.mem_cons_self rfl rfl))
  have h₄ := h₃.snoc (e := .dml (.insertLog 1)) (.dml (.insertLog rfl))
  have h₅ := h₄.snoc (e := .dml (.commit 1)) (.dml (.commit rfl))
  have h₆ := h₅.snoc (e := .dml (.unlock 1 "t")) (.dml (.unlock (Or.inl rfl)))
  have h₇ := h₆.snoc (e := .dropTable "t") (.dropTable rfl (alone_tab rfl fun t ht => by
    simp [startOf, serverWith, ht]))
  have h₈ := h₇.snoc (e := .createTable "t" 512) (.createTable rfl rfl (Or.inr rfl))
  have hfile := holds_storedFile (show ∀ r ∈ insertedLog, Storable r by decide +kernel)
  refine absurd (hall _ _ _ _ freshServer_init h₈ ?_
    (alone_inserted rfl fun t ht => by simp [startOf, serverWith, ht]) hfile) ?_
  · refine forall_snoc (forall_snoc (forall_snoc (forall_snoc (forall_snoc (forall_snoc (forall_snoc (forall_snoc (List.forall_mem_nil _)
      ?_) ?_) ?_) ?_) ?_) ?_) ?_) ?_
    all_goals exact fun _ => ⟨fun h => (by cases h), fun h => (by cases h)⟩
  · rintro ⟨tables, hrun, hgood⟩
    rw [recover_of_holds hfile (by rw [length_storedFile]; decide +kernel)] at hrun
    obtain ⟨f, hf, hrec⟩ := (hgood "t").2 emptyFile rfl
    obtain rfl := Except.ok.inj (hrun.symm.trans rfl)
    obtain rfl := Option.some.inj (hf.symm.trans rfl)
    have h₉ := congrFun hrec ⟨1, 0⟩
    change some (filled 1) = none at h₉
    cases h₉

end Rmdb.Recovery
