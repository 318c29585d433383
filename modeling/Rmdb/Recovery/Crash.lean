import Rmdb.Recovery.History
import Rmdb.Recovery.Recover
import Rmdb.Transaction.WriteAhead

/-!
# Recovery after a crash

A crash can come in any state of the server. What is left is the log file, its last record
perhaps cut off, and the disk, where every page is as the buffer pool last wrote it, each at another
time, and every file header is as it was at the start. Recovery should make of this exactly what the
committed transactions made of the tables (`Recovered`).

`analyze` reads the whole log only if its file is shorter than `2 ^ 31` bytes. If it is:

`recover_of_no_rollback`: recovery does so, if no transaction was rolled back and no page was
written in the middle of an `INSERT`. Every slot on disk is then in a state it went
through, and redo converges. With a longer log it need not (`recover_long_log_fails`).

`recover_iff_safe`: with rollbacks it does exactly if every slot is `Safe`. Redo and undo
skip the changes of aborted transactions, so such a change that has gone to disk and was
rolled back only in the buffer pool stays, unless a later change in the log makes up for
it.
-/

namespace Rmdb.Recovery

open Lib Record RmFileHandle Transaction Change

/-- The changes of the committed transactions: those with a `COMMIT` record and no `ABORT` record. -/
def committedChanges (tab : String) (log : List LogRecord) : List (Rid × Change Bytes) :=
  changesOf (fun t => !(t ∈ committedTxns log && t ∉ abortedTxns log)) tab log

/-- The tables hold exactly what the committed transactions made of the tables of `s₀`. -/
def Recovered (s₀ : Sys) (log : List LogRecord) (tables : Tables) : Prop :=
  ∀ tab, (s₀.tables tab = none → tables tab = none) ∧ ∀ f₀, s₀.tables tab = some f₀ →
    ∃ f, tables tab = some f ∧ f.records = replayAt apply f₀.records (committedChanges tab log)

theorem changesOf_eq (skip : TxnId → Bool) (tab : String) (log : List LogRecord) :
    changesOf skip tab log = ((entries tab log).filter fun e => !skip e.1).map Prod.snd := by
  induction log with
  | nil => rfl
  | cons r log ih =>
    have hcons : entries tab (r :: log) = (LogRecord.entry tab r).toList ++ entries tab log :=
      (entries_append tab [r] log).trans (by rw [← List.nil_append [r], entries_concat]; rfl)
    have hcons' : changesOf skip tab (r :: log) = changesOf skip tab [r] ++ changesOf skip tab log :=
      List.filterMap_append (l := [r])
    rw [hcons, hcons', ih, List.filter_append, List.map_append]
    congr 1
    cases r with
    | insert t tab' rid v | delete t tab' rid v =>
      by_cases htab : tab' = tab <;> cases hskip : skip t <;>
        simp [changesOf, LogRecord.change, LogRecord.logTid, LogRecord.entry, htab, hskip]
    | update t tab' rid old new =>
      by_cases htab : tab' = tab <;> cases hskip : skip t <;>
        simp [changesOf, LogRecord.change, LogRecord.logTid, LogRecord.entry, htab, hskip]
    | _ => simp [changesOf, LogRecord.change, LogRecord.entry]

theorem ended_iff {log : List LogRecord} {t : TxnId} : Ended log t ↔ t ∈ committedTxns log ∨ t ∈ abortedTxns log := by
  simp only [Ended, committedTxns, abortedTxns, List.mem_filterMap, ← exists_or, ← and_or_left]
  refine exists_congr fun r => and_congr_right ?_
  intro _
  cases r <;> simp [LogRecord.ends]

/-- The log has the changes of the committed transactions, then those of the unfinished one, and they can be made one
after the other. -/
theorem TableIn.changes {f₀ f : RmFileHandle} {s : Sys} {tab : String} (h : TableIn f₀ s tab f) :
    redoneChanges tab s.log = committedChanges tab s.log ++ undoneChanges tab s.log ∧
      ValidAt f₀.records (committedChanges tab s.log ++ undoneChanges tab s.log) := by
  obtain ⟨X, U, V, W, t, hist⟩ := h.hist
  have hU : ∀ e ∈ U, ¬ Ended s.log e.1 := fun e he => by
    rw [hist.own e he]
    exact hist.unended (List.ne_nil_of_mem he)
  have hsplit : ∀ skip : TxnId → Bool, changesOf skip tab s.log =
      (X.filter fun e => !skip e.1).map Prod.snd ++ (U.filter fun e => !skip e.1).map Prod.snd := fun skip => by
    rw [changesOf_eq, hist.split, List.filter_append, List.map_append]
  have hX' : ∀ e ∈ X, e.1 ∈ committedTxns s.log ∨ e.1 ∈ abortedTxns s.log := fun e he => ended_iff.mp (hist.ended e he)
  have hU' : ∀ e ∈ U, e.1 ∉ committedTxns s.log ∧ e.1 ∉ abortedTxns s.log := fun e he =>
    not_or.mp (mt ended_iff.mpr (hU e he))
  have hcommitted : committedChanges tab s.log = kept s.log X := by
    have hnil : U.filter (fun e => !!(decide (e.1 ∈ committedTxns s.log) && decide (e.1 ∉ abortedTxns s.log))) = [] :=
      List.filter_eq_nil_iff.mpr fun e he => by simp [hU' e he]
    rw [committedChanges, hsplit, hnil, List.map_nil, List.append_nil, kept]
    congr 1
    exact List.filter_congr fun e he => by have := hX' e he; grind
  have hundone : undoneChanges tab s.log = U.map Prod.snd := by
    have hnil : X.filter (fun e => !(decide (e.1 ∈ committedTxns s.log) || decide (e.1 ∈ abortedTxns s.log))) = [] :=
      List.filter_eq_nil_iff.mpr fun e he => by have := hX' e he; grind
    have hall : U.filter (fun e => !(decide (e.1 ∈ committedTxns s.log) || decide (e.1 ∈ abortedTxns s.log))) = U :=
      List.filter_eq_self.mpr fun e he => by simp [hU' e he]
    rw [undoneChanges, hsplit, hnil, hall]
    rfl
  have hredone : redoneChanges tab s.log = kept s.log X ++ U.map Prod.snd := by
    have hall : U.filter (fun e => !decide (e.1 ∈ abortedTxns s.log)) = U :=
      List.filter_eq_self.mpr fun e he => by simp [hU' e he]
    rw [redoneChanges, hsplit, hall, kept]
    congr 2
    exact List.filter_congr fun e _ => by simp
  rw [hcommitted, hundone]
  exact ⟨hredone, hist.valid⟩

/-! ### The disk -/

/-- The file on disk: it has the header of the start, and every page is in order. -/
structure DiskIn (f₀ : RmFileHandle) (s : Sys) (tab : String) (g : RmFileHandle) : Prop where
  file : s.disk tab = some g
  pages : g.PagesOk
  per : g.numRecordsPerPage = f₀.numRecordsPerPage
  header : g.numPages = f₀.numPages

/-- What holds in every state of a run without overlap. -/
structure RunOk (s₀ s : Sys) : Prop where
  sane : Sane s
  absent : ∀ tab, s₀.tables tab = none → s.tables tab = none ∧ s.disk tab = none
  present : ∀ tab f₀, s₀.tables tab = some f₀ → ∃ f g, TableIn f₀ s tab f ∧ DiskIn f₀ s tab g

section Runs

variable {s₀ s s' : Sys} {e : Event} {tab : String} {f₀ f g : RmFileHandle} {tr : List (Sys × Event)} {file : Bytes}

/-- A step makes no table. -/
theorem absent_step (h : Step s e s') (htab : s.tables tab = none ∧ s.disk tab = none) :
    s'.tables tab = none ∧ s'.disk tab = none := by
  have hne : ∀ {tab' : String} {f f' : RmFileHandle}, s.tables tab' = some f →
      Function.update s.tables tab' (some f') tab = none := by
    intro tab' f f' hf
    rw [Function.update_of_ne, htab.1]
    rintro rfl
    rw [htab.1] at hf
    cases hf
  cases h with
  | insertRecord _ _ hf _ => exact ⟨hne hf, htab.2⟩
  | insertFail _ hf _ => exact ⟨hne hf, htab.2⟩
  | deleteRecord _ hf _ => exact ⟨hne hf, htab.2⟩
  | updateRecord _ hf _ => exact ⟨hne hf, htab.2⟩
  | undo _ _ hf _ => exact ⟨hne hf, htab.2⟩
  | @writePage tab' p f g hf hg =>
    refine ⟨htab.1, ?_⟩
    change Function.update s.disk tab' _ tab = none
    rw [Function.update_of_ne, htab.2]
    rintro rfl
    rw [htab.2] at hg
    cases hg
  | _ => exact htab

theorem PagesOk.setPage {f g : RmFileHandle} {p : ℤ} (hg : g.PagesOk) (hf : f.PagesOk)
    (hper : g.numRecordsPerPage = f.numRecordsPerPage) (hnum : g.numPages ≤ f.numPages) :
    (g.setPage p (f.pages p)).PagesOk := by
  intro q hq hq'
  change CellOk g.numRecordsPerPage _
  rw [cells_setPage]
  by_cases hqp : q = p
  · subst hqp
    rw [Function.update_self, hper]
    exact hf q hq (hq'.trans_le hnum)
  · rw [Function.update_of_ne hqp]
    exact hg q hq hq'

/-- Only the buffer pool writes to disk. -/
theorem DiskIn.step (h : DiskIn f₀ s tab g) (hf : TableIn f₀ s tab f) (hstep : Step s e s') :
    ∃ g', DiskIn f₀ s' tab g' ∧ (g' = g ∨ ∃ p, e = .writePage tab p ∧ g' = g.setPage p (f.pages p)) := by
  cases hstep with
  | @writePage tab' p f₁ g₁ hf₁ hg₁ =>
    by_cases htab : tab' = tab
    · subst htab
      obtain rfl := Option.some.inj (hf₁.symm.trans hf.file)
      obtain rfl := Option.some.inj (hg₁.symm.trans h.file)
      refine ⟨_, ⟨Function.update_self .., ?_, h.per, h.header⟩, Or.inr ⟨p, rfl, rfl⟩⟩
      exact PagesOk.setPage h.pages hf.pages (h.per.trans hf.per.symm) (h.header.le.trans hf.grows)
    · exact ⟨g, ⟨(Function.update_of_ne (Ne.symm htab) ..).trans h.file, h.pages, h.per, h.header⟩, Or.inl rfl⟩
  | _ => exact ⟨g, ⟨h.file, h.pages, h.per, h.header⟩, Or.inl rfl⟩

theorem runOk_init (h : Init s) : RunOk s s :=
  ⟨h.sane, fun _ htab => ⟨htab, h.disk ▸ htab⟩, fun _ f hf => ⟨f, f, tableIn_init h hf,
    ⟨h.disk ▸ hf, h.pages _ f hf, rfl, rfl⟩⟩⟩

theorem RunOk.step (h : RunOk s₀ s) (hno : NoOverlap s e) (hstep : Step s e s') : RunOk s₀ s' := by
  refine ⟨h.sane.step hstep, fun tab htab => absent_step hstep (h.absent tab htab), ?_⟩
  intro tab f₀ hf₀
  obtain ⟨f, g, hf, hg⟩ := h.present tab f₀ hf₀
  obtain ⟨f', hf'⟩ := hf.step h.sane hno hstep
  obtain ⟨g', hg', -⟩ := hg.step hf hstep
  exact ⟨f', g', hf', hg'⟩

theorem runOk_run (hinit : Init s₀) (htr : Trace Step s₀ tr s) (hno : ∀ x ∈ tr, NoOverlap x.1 x.2) : RunOk s₀ s :=
  htr.inv hno (runOk_init hinit) fun ha hC hs => ha.step hC hs

/-- What recovery makes of every slot. -/
theorem RunOk.recover (h : RunOk s₀ s) (hfile : Holds file s.log) (hlen : file.length < 2 ^ 31) :
    ∃ tables, recover file s.disk = .ok tables ∧
    ∀ tab, (s₀.tables tab = none → tables tab = none) ∧ ∀ f₀, s₀.tables tab = some f₀ → ∃ f g,
      tables tab = some f ∧ DiskIn f₀ s tab g ∧ ∀ rid, f.records rid =
        replay Change.undo (replay Change.redo (g.records rid) (changesAt rid (committedChanges tab s.log) ++
          changesAt rid (undoneChanges tab s.log))) (changesAt rid (undoneChanges tab s.log)).reverse := by
  have hdisk : ∀ tab g, s.disk tab = some g → ∃ f₀ f, s₀.tables tab = some f₀ ∧ TableIn f₀ s tab f ∧ DiskIn f₀ s tab g := by
    intro tab g hg
    cases hf₀ : s₀.tables tab with
    | none =>
      rw [(h.absent tab hf₀).2] at hg
      cases hg
    | some f₀ =>
      obtain ⟨f, g', hf, hg'⟩ := h.present tab f₀ hf₀
      obtain rfl := Option.some.inj (hg.symm.trans hg'.file)
      exact ⟨f₀, f, rfl, hf, hg'⟩
  have hok : TablesOk s.disk := fun tab g hg => by
    obtain ⟨f₀, f, -, -, hg'⟩ := hdisk tab g hg
    exact hg'.pages
  have hlog : LogOk s.log s.disk := by
    intro r hr tab rid c hc g hg
    obtain ⟨f₀, f, -, hf, hg'⟩ := hdisk tab g hg
    have hentry : LogRecord.entry tab r = some (r.logTid, rid, c) := by
      cases r <;> simp_all [LogRecord.change, LogRecord.entry, LogRecord.logTid]
    rw [hg'.per]
    exact hf.rids _ (List.mem_filterMap.mpr ⟨r, hr, hentry⟩)
  obtain ⟨tables, hrun, hspec⟩ := redoUndo_spec hok hlog
  refine ⟨tables, by rw [recover_of_holds hfile hlen, hrun]; rfl, fun tab => ⟨fun htab => ?_, fun f₀ hf₀ => ?_⟩⟩
  · exact (hspec tab).1 (h.absent tab htab).2
  obtain ⟨f, g, hf, hg⟩ := h.present tab f₀ hf₀
  obtain ⟨f', hf', hrec⟩ := (hspec tab).2 g hg.file
  refine ⟨f', g, hf', hg, ?_⟩
  intro rid
  rw [hrec rid, hf.changes.1, changesAt_append]

/-- When recovery brings a slot of a table to the state the committed transactions gave it. -/
def SlotSafe (f₀ g : RmFileHandle) (log : List LogRecord) (tab : String) (rid : Rid) : Prop :=
  Safe (f₀.records rid) (g.records rid) (changesAt rid (committedChanges tab log)) (changesAt rid (undoneChanges tab log))

/-- **Recovery, exactly**: after a run in which no executor appends to the log of a table while a transaction that has
written the table is between its release of the lock and its `ABORT` record, recovery from a log file shorter than `2 ^ 31` bytes
does not throw, and it gives the tables what the committed transactions made of them if and only if every slot is safe. -/
theorem recover_iff_safe (hinit : Init s₀) (htr : Trace Step s₀ tr s) (hno : ∀ x ∈ tr, NoOverlap x.1 x.2)
    (hfile : Holds file s.log) (hlen : file.length < 2 ^ 31) :
    ∃ tables, recover file s.disk = .ok tables ∧
      (Recovered s₀ s.log tables ↔
        ∀ tab f₀ g, s₀.tables tab = some f₀ → s.disk tab = some g → ∀ rid, SlotSafe f₀ g s.log tab rid) := by
  have hrunOk := runOk_run hinit htr hno
  obtain ⟨tables, hrun, hspec⟩ := hrunOk.recover hfile hlen
  refine ⟨tables, hrun, ?_⟩
  -- a slot is right exactly if it is safe
  have hslot : ∀ tab f₀ f g, s₀.tables tab = some f₀ → tables tab = some f → s.disk tab = some g → ∀ rid,
      f.records rid = replayAt apply f₀.records (committedChanges tab s.log) rid ↔ SlotSafe f₀ g s.log tab rid := by
    intro tab f₀ f g hf₀ hf hg rid
    obtain ⟨f', g', hf', hg', hrec⟩ := (hspec tab).2 f₀ hf₀
    obtain rfl := Option.some.inj (hf.symm.trans hf')
    obtain rfl := Option.some.inj (hg.symm.trans hg'.file)
    obtain ⟨f₁, -, hf₁, -⟩ := hrunOk.present tab f₀ hf₀
    have hvalid := hf₁.changes.2.validTrace rid
    rw [changesAt_append] at hvalid
    rw [hrec, replayAt_apply]
    exact Change.recover_iff hvalid _
  constructor
  · intro hgood tab f₀ g hf₀ hg rid
    obtain ⟨f, hf, hrec⟩ := (hgood tab).2 f₀ hf₀
    exact (hslot tab f₀ f g hf₀ hf hg rid).mp (congrFun hrec rid)
  · intro hsafe tab
    refine ⟨(hspec tab).1, ?_⟩
    intro f₀ hf₀
    obtain ⟨f, g, hf, hg, -⟩ := (hspec tab).2 f₀ hf₀
    exact ⟨f, hf, funext fun rid => (hslot tab f₀ f g hf₀ hf hg.file rid).mpr (hsafe tab f₀ g hf₀ hg.file rid)⟩

/-! ### Without rollbacks -/

/-- A step of a run without rollbacks, in which an `INSERT` and its log append are one as far as the disk can tell. -/
def Plain (s : Sys) (e : Event) : Prop := (∀ t, e ≠ .abort t) ∧ NoInsertInPage s e

/-- Every slot on disk is in a state it went through. -/
def Visited (f₀ g : RmFileHandle) (log : List LogRecord) (tab : String) : Prop :=
  ∀ rid, ∃ A, A <+: changesAt rid ((entries tab log).map Prod.snd) ∧ g.records rid = replay apply (f₀.records rid) A

/-- What holds in every state of a run without rollbacks. -/
structure PlainOk (s₀ s : Sys) : Prop where
  runOk : RunOk s₀ s
  running : ∀ t, s.pc t ≠ .aborting
  aborted : abortedTxns s.log = []
  visited : ∀ tab f₀ g, s₀.tables tab = some f₀ → s.disk tab = some g → Visited f₀ g s.log tab

theorem noOverlap_of_running (h : ∀ t, s.pc t ≠ .aborting) : NoOverlap s e := fun _ _ _ t' _ _ hrel => h t' hrel.1

theorem running_step (h : ∀ t, s.pc t ≠ .aborting) (he : ∀ t, e ≠ .abort t) (hstep : Step s e s') (t : TxnId) :
    s'.pc t ≠ .aborting := by
  have hold := h t
  cases hstep with
  | abort => exact absurd rfl (he _)
  | _ => grind [Function.update_apply]

theorem aborted_step (h : ∀ t, s.pc t ≠ .aborting) (hab : abortedTxns s.log = []) (hstep : Step s e s') :
    abortedTxns s'.log = [] := by
  cases hstep with
  | abortLog hpc => exact absurd hpc (h _)
  | _ => simpa [abortedTxns] using hab

/-- A slot in the buffer pool is in a state it goes through, if no `INSERT` is ahead of the log there. -/
theorem TableIn.visited (h : TableIn f₀ s tab f) (hpc : ∀ t, s.pc t ≠ .aborting) (hab : abortedTxns s.log = []) {rid : Rid}
    (hins : ∀ t rid₀ buf, s.pc t = .inserted tab rid₀ buf → rid₀ ≠ rid) :
    ∃ A, A <+: changesAt rid ((entries tab s.log).map Prod.snd) ∧ f.records rid = replay apply (f₀.records rid) A := by
  obtain ⟨X, U, V, W, t, hist⟩ := h.hist
  obtain rfl : W = [] := by_contra fun hW => hpc t (hist.rolled hW)
  have hV : U.map Prod.snd = V := hist.parts.trans (List.append_nil _)
  have hkept : kept s.log X = X.map Prod.snd := by
    unfold kept
    rw [List.filter_eq_self.mpr fun e _ => by simp [hab]]
  have hall : (entries tab s.log).map Prod.snd = kept s.log X ++ V := by
    rw [hist.split, List.map_append, hkept, hV]
  rw [hall]
  by_cases hpend : ∃ t', (s.pc t').tab = some tab
  · obtain ⟨t', ht'⟩ := hpend
    cases hpc' : s.pc t' with
    | inserted tab₀ rid₀ buf =>
      rw [hpc'] at ht'
      obtain rfl : tab₀ = tab := Option.some.inj ht'
      obtain ⟨-, hm⟩ := hist.inserted t' rid₀ buf hpc'
      refine ⟨_, List.prefix_refl _, ?_⟩
      rw [hm, Function.update_of_ne (Ne.symm (hins t' rid₀ buf hpc')), replayAt_apply]
    | logged tab₀ rid₀ c =>
      rw [hpc'] at ht'
      obtain rfl : tab₀ = tab := Option.some.inj ht'
      obtain ⟨V', rfl, hm⟩ := hist.logged t' rid₀ c hpc'
      refine ⟨changesAt rid (kept s.log X ++ V'), ?_, by rw [hm, replayAt_apply]⟩
      rw [← List.append_assoc, changesAt_append (B := [(rid₀, c)])]
      exact List.prefix_append ..
    | _ =>
      rw [hpc'] at ht'
      cases ht'
  · refine ⟨_, List.prefix_refl _, ?_⟩
    rw [hist.rest fun t' ht' => hpend ⟨t', ht'⟩, replayAt_apply]

/-- The records of a file of which one page has been written. -/
theorem records_setPage {p : ℤ} (hper : g.numRecordsPerPage = f.numRecordsPerPage) (hnum : g.numPages ≤ f.numPages)
    (rid : Rid) : (g.setPage p (f.pages p)).records rid = g.records rid ∨
      rid.pageNo = p ∧ (g.setPage p (f.pages p)).records rid = f.records rid := by
  unfold RmFileHandle.records slot setPage
  by_cases hp : rid.pageNo = p
  · subst hp
    by_cases hin : RM_FIRST_RECORD_PAGE ≤ rid.pageNo ∧ rid.pageNo < g.numPages
    · have hin' : RM_FIRST_RECORD_PAGE ≤ rid.pageNo ∧ rid.pageNo < f.numPages := ⟨hin.1, hin.2.trans_le hnum⟩
      exact Or.inr ⟨rfl, by simp only [if_pos hin, if_pos hin', Function.update_self, hper]⟩
    · exact Or.inl (by simp only [if_neg hin])
  · exact Or.inl (by simp only [Function.update_of_ne hp])

theorem Visited.mono {log log' : List LogRecord} (h : Visited f₀ g log tab) (hlog : log <+: log') :
    Visited f₀ g log' tab := by
  intro rid
  obtain ⟨A, hA, hrec⟩ := h rid
  obtain ⟨B, rfl⟩ := hlog
  refine ⟨A, hA.trans ?_, hrec⟩
  rw [entries_append, List.map_append, changesAt_append]
  exact List.prefix_append ..

theorem PlainOk.step (h : PlainOk s₀ s) (hplain : Plain s e) (hstep : Step s e s') : PlainOk s₀ s' := by
  refine ⟨h.runOk.step (noOverlap_of_running h.running) hstep, running_step h.running hplain.1 hstep,
    aborted_step h.running h.aborted hstep, ?_⟩
  intro tab f₀ g' hf₀ hg'
  obtain ⟨f, g, hf, hg⟩ := h.runOk.present tab f₀ hf₀
  have hvisited := h.visited tab f₀ g hf₀ hg.file
  obtain ⟨g₁, hg₁, hcase⟩ := hg.step hf hstep
  obtain rfl := Option.some.inj (hg'.symm.trans hg₁.file)
  refine Visited.mono ?_ hstep.log_prefix
  rcases hcase with rfl | ⟨p, rfl, rfl⟩
  · exact hvisited
  · intro rid
    rcases records_setPage (p := p) (hg.per.trans hf.per.symm) (hg.header.le.trans hf.grows) rid with heq | ⟨hp, heq⟩
    · rw [heq]
      exact hvisited rid
    · rw [heq]
      refine hf.visited h.running h.aborted ?_
      intro t rid₀ buf ht hrid
      exact hplain.2 tab p rfl t rid₀ buf ht (by rw [hrid, hp])

theorem plainOk_init (hinit : Init s) : PlainOk s s := by
  refine ⟨runOk_init hinit, fun t => by simp [hinit.pc], by rw [hinit.log]; rfl, ?_⟩
  intro tab f₀ g hf₀ hg rid
  rw [hinit.disk] at hg
  obtain rfl := Option.some.inj (hf₀.symm.trans hg)
  exact ⟨[], List.nil_prefix, rfl⟩

/-- Redo and undo of a slot that is in a state it went through. -/
theorem recovered_slot (hf : TableIn f₀ s tab f) (hab : abortedTxns s.log = []) {rid : Rid} {x : Option Bytes}
    {A B : List (Change Bytes)} (hAB : changesAt rid ((entries tab s.log).map Prod.snd) = A ++ B)
    (hx : x = replay apply (f₀.records rid) A) :
    replay Change.undo (replay Change.redo x (changesAt rid (committedChanges tab s.log) ++
      changesAt rid (undoneChanges tab s.log))) (changesAt rid (undoneChanges tab s.log)).reverse =
        replayAt apply f₀.records (committedChanges tab s.log) rid := by
  have hall : redoneChanges tab s.log = (entries tab s.log).map Prod.snd := by
    rw [redoneChanges, changesOf_eq, List.filter_eq_self.mpr fun e _ => by simp [hab]]
  have hvalid := hf.changes.2.validTrace rid
  rw [← hall, hf.changes.1, changesAt_append] at hAB
  rw [changesAt_append] at hvalid
  rw [hx, redo_visited hvalid hAB, replay_append, undo_valid (validTrace_append.mp hvalid).2, replayAt_apply]

/-- **Recovery without rollbacks**: after a run in which no transaction is rolled back, and an `INSERT` and its log append
are one step for the disk, recovery from a log file shorter than `2 ^ 31` bytes does not throw, and it gives the tables exactly
what the committed transactions made of them. -/
theorem recover_of_no_rollback (hinit : Init s₀) (htr : Trace Step s₀ tr s) (hplain : ∀ x ∈ tr, Plain x.1 x.2)
    (hfile : Holds file s.log) (hlen : file.length < 2 ^ 31) :
    ∃ tables, recover file s.disk = .ok tables ∧ Recovered s₀ s.log tables := by
  have hok : PlainOk s₀ s := htr.inv hplain (plainOk_init hinit) fun ha hC hs => ha.step hC hs
  obtain ⟨tables, hrun, hspec⟩ := hok.runOk.recover hfile hlen
  refine ⟨tables, hrun, fun tab => ⟨(hspec tab).1, ?_⟩⟩
  intro f₀ hf₀
  obtain ⟨f', g, hf', hg, hrec⟩ := (hspec tab).2 f₀ hf₀
  obtain ⟨f, -, hf, -⟩ := hok.runOk.present tab f₀ hf₀
  refine ⟨f', hf', funext ?_⟩
  intro rid
  obtain ⟨A, ⟨B, hAB⟩, hvisited⟩ := hok.visited tab f₀ g hf₀ hg.file rid
  rw [hrec]
  exact recovered_slot hf hok.aborted hAB.symm hvisited

end Runs

/-- A file with one record. -/
def oneFile : RmFileHandle := emptyFile.createNewPageHandle.1.put ⟨1, 0⟩ (filled 1)

theorem insertRecord_oneFile : emptyFile.insertRecord (filled 1) = .ok (oneFile, ⟨1, 0⟩) := rfl

theorem oneFile_init : Init (serverWith oneFile) :=
  serverWith_init (by decide) (insertRecord_cases emptyFile_pages (le_refl _) insertRecord_oneFile).2.2.pages

/-- A condition on the steps of a run, one step at a time. -/
theorem forall_snoc {α : Type} {P : α → Prop} {tr : List α} (h : ∀ x ∈ tr, P x) {x : α} (hx : P x) :
    ∀ y ∈ tr ++ [x], P y := by
  intro y hy
  rcases List.mem_append.mp hy with hy | hy
  · exact h y hy
  · rw [List.mem_singleton.mp hy]
    exact hx

/-- An update that goes to disk before its transaction commits. -/
theorem recover_of_no_rollback_update : ∃ tr s file, Trace Step (serverWith oneFile) tr s ∧ LogRecord.commit 1 ∈ s.log ∧
    Holds file s.log ∧ ∃ tables, recover file s.disk = .ok tables ∧ Recovered (serverWith oneFile) s.log tables := by
  have h₁ := Trace.nil.snoc (e := Event.beginTxn 1) (Step.beginTxn (s := serverWith oneFile) rfl)
  have h₂ := h₁.snoc (e := .lock 1 "t" .exclusive) (.lock rfl rfl)
  have h₃ := h₂.snoc (e := .updateLog 1 "t" ⟨1, 0⟩ (filled 2)) (.updateLog rfl List.mem_cons_self rfl rfl)
  have h₄ := h₃.snoc (e := .updateRecord 1) (.updateRecord rfl rfl rfl)
  have h₅ := h₄.snoc (e := .writePage "t" 1) (.writePage rfl rfl)
  have h₆ := h₅.snoc (e := .commit 1) (.commit rfl)
  have hfile := holds_storedFile
    (show ∀ r ∈ ([.beginTxn 1, .update 1 "t" ⟨1, 0⟩ (filled 1) (filled 2), .commit 1] : List LogRecord), Storable r by decide +kernel)
  refine ⟨_, _, _, h₆, by simp, hfile, recover_of_no_rollback oneFile_init h₆ ?_ hfile (by
    rw [length_storedFile]
    decide +kernel)⟩
  refine forall_snoc (forall_snoc (forall_snoc (forall_snoc (forall_snoc (forall_snoc (List.forall_mem_nil _) ?_) ?_) ?_) ?_) ?_) ?_
  case refine_5 =>
    refine ⟨fun _ h => (by cases h), ?_⟩
    intro tab p _ t rid buf ht
    by_cases h1 : t = 1
    · subst h1
      cases ht
    · simp [serverWith, h1] at ht
  all_goals exact ⟨fun _ h => (by cases h), fun _ _ h => (by cases h)⟩

/-! ### A log that is too long -/

/-- So many more transactions have begun and committed, each with a single `SELECT`. -/
def selects (s : Sys) : ℕ → Sys
  | 0 => s
  | k + 1 => { selects s k with
    pc := Function.update (Function.update (selects s k).pc (k + 2) .running) (k + 2) .committing
    log := (selects s k).log ++ [.beginTxn (k + 2)] ++ [.commit (k + 2)]
    writeSet := Function.update (selects s k).writeSet (k + 2) [] }

/-- The log records of these transactions. -/
def selectRecords (k : ℕ) : List LogRecord := (List.range k).flatMap fun i => [.beginTxn (i + 2), .commit (i + 2)]

section Selects

variable {s₀ s : Sys} {tr : List (Sys × Event)}

theorem selects_frame (s : Sys) (k : ℕ) : (selects s k).disk = s.disk ∧ (selects s k).log = s.log ++ selectRecords k := by
  induction k with
  | zero => exact ⟨rfl, (List.append_nil _).symm⟩
  | succ k ih =>
    refine ⟨ih.1, ?_⟩
    rw [selects, ih.2, selectRecords, selectRecords, List.range_succ, List.flatMap_append]
    simp

theorem selects_pc (s : Sys) (k : ℕ) {t : TxnId} (ht : k + 2 ≤ t) : (selects s k).pc t = s.pc t := by
  induction k with
  | zero => rfl
  | succ k ih =>
    have hne : t ≠ k + 2 := (Nat.lt_of_succ_le ht).ne'
    rw [selects]
    exact (Function.update_of_ne hne ..).trans ((Function.update_of_ne hne ..).trans (ih (Nat.le_of_succ_le ht)))

/-- The run goes on with these transactions. -/
theorem run_selects (htr : Trace Step s₀ tr s) (hplain : ∀ x ∈ tr, Plain x.1 x.2) (hidle : ∀ t, 2 ≤ t → s.pc t = .idle)
    (k : ℕ) : ∃ tr', Trace Step s₀ tr' (selects s k) ∧ ∀ x ∈ tr', Plain x.1 x.2 := by
  induction k with
  | zero => exact ⟨tr, htr, hplain⟩
  | succ k ih =>
    obtain ⟨tr', htr', hplain'⟩ := ih
    have hpc : (selects s k).pc (k + 2) = .idle := (selects_pc s k (le_refl _)).trans (hidle _ (Nat.le_add_left 2 k))
    have h₁ := htr'.snoc (e := .beginTxn (k + 2)) (.beginTxn hpc)
    have h₂ := h₁.snoc (e := .commit (k + 2)) (.commit (Function.update_self ..))
    refine ⟨_, h₂, forall_snoc (forall_snoc hplain' ?_) ?_⟩
    all_goals exact ⟨fun _ h => (by cases h), fun _ _ h => (by cases h)⟩

theorem mem_selectRecords {k : ℕ} {r : LogRecord} :
    r ∈ selectRecords k ↔ ∃ i < k, r = .beginTxn (i + 2) ∨ r = .commit (i + 2) := by
  simp [selectRecords]

theorem header_le_buffer : LOG_HEADER_SIZE ≤ LOG_BUFFER_SIZE := by decide

theorem total_selectRecords (k : ℕ) : total (fun r => r.stored.size) (selectRecords k) = k * 40 := by
  induction k with
  | zero => rfl
  | succ k ih =>
    rw [selectRecords, List.range_succ, List.flatMap_append, total_append]
    rw [selectRecords] at ih
    rw [ih, Nat.succ_mul]
    rfl

theorem storable_selectRecords {k : ℕ} (hk : k < 2 ^ 31) : ∀ r ∈ selectRecords k, Storable r := by
  have htid : ∀ i < k, txnIdOf (Int32.ofNat (i + 2)) = i + 2 := by
    intro i hi
    rw [txnIdOf, Int32.toUInt32_ofNat', UInt32.toNat_ofNat_of_lt' (by rw [UInt32.size]; omega)]
  intro r hr
  obtain ⟨i, hi, rfl | rfl⟩ := mem_selectRecords.mp hr
  · exact ⟨header_le_buffer, congrArg LogRecord.beginTxn (htid i hi)⟩
  · exact ⟨header_le_buffer, congrArg LogRecord.commit (htid i hi)⟩

theorem mem_committedTxns {log : List LogRecord} {t : TxnId} : t ∈ committedTxns log ↔ .commit t ∈ log := by
  rw [committedTxns, List.mem_filterMap]
  constructor
  · rintro ⟨r, hr, heq⟩
    cases r <;> simp_all
  · exact fun h => ⟨_, h, rfl⟩

theorem mem_abortedTxns {log : List LogRecord} {t : TxnId} : t ∈ abortedTxns log ↔ .abort t ∈ log := by
  rw [abortedTxns, List.mem_filterMap]
  constructor
  · rintro ⟨r, hr, heq⟩
    cases r <;> simp_all
  · exact fun h => ⟨_, h, rfl⟩

end Selects

/-- The log of transaction `1`, which inserts a record into table `t` and commits. -/
def insertedLog : List LogRecord := [.beginTxn 1, .insert 1 "t" ⟨1, 0⟩ (filled 1), .commit 1]

/-- The `SELECT`s that follow do not change what has been committed. -/
theorem committedChanges_insertedLog (k : ℕ) :
    committedChanges "t" (insertedLog ++ selectRecords k) = [(⟨1, 0⟩, .insert (filled 1))] := by
  have hcommit : 1 ∈ committedTxns (insertedLog ++ selectRecords k) :=
    mem_committedTxns.mpr (List.mem_append_left _ (by decide))
  have habort : 1 ∉ abortedTxns (insertedLog ++ selectRecords k) := fun h => by
    rcases List.mem_append.mp (mem_abortedTxns.mp h) with h | h
    · simp [insertedLog] at h
    · obtain ⟨i, -, h | h⟩ := mem_selectRecords.mp h
      · cases h
      · cases h
  have hselects : ∀ skip : TxnId → Bool, changesOf skip "t" (selectRecords k) = [] := by
    refine fun skip => List.filterMap_eq_nil_iff.mpr ?_
    intro r hr
    obtain ⟨i, -, rfl | rfl⟩ := mem_selectRecords.mp hr
    · simp [LogRecord.change]
    · simp [LogRecord.change]
  have happend : ∀ skip : TxnId → Bool, changesOf skip "t" (insertedLog ++ selectRecords k) =
      changesOf skip "t" insertedLog ++ changesOf skip "t" (selectRecords k) := fun skip => List.filterMap_append
  have hinsert : ∀ skip : TxnId → Bool, skip 1 = false →
      changesOf skip "t" insertedLog = [(⟨1, 0⟩, .insert (filled 1))] := fun skip hskip => by
    simp [changesOf, insertedLog, LogRecord.change, LogRecord.logTid, hskip]
  rw [committedChanges, happend, hselects, List.append_nil]
  exact hinsert _ (by simp only [hcommit, habort, decide_true, not_false_eq_true, Bool.and_self, Bool.not_true])

/-- The record is inserted, and its page stays in the buffer pool. -/
theorem run_inserted : ∃ tr s, Trace Step freshServer tr s ∧ (∀ x ∈ tr, Plain x.1 x.2) ∧ (∀ t, 2 ≤ t → s.pc t = .idle) ∧
    s.log = insertedLog ∧ s.disk = freshServer.disk := by
  have h₁ := Trace.nil.snoc (e := Event.beginTxn 1) (Step.beginTxn (s := freshServer) rfl)
  have h₂ := h₁.snoc (e := .lock 1 "t" .exclusive) (.lock rfl rfl)
  have h₃ := h₂.snoc (e := .insertRecord 1 "t" (filled 1)) (.insertRecord rfl List.mem_cons_self rfl rfl)
  have h₄ := h₃.snoc (e := .insertLog 1) (.insertLog rfl)
  have h₅ := h₄.snoc (e := .commit 1) (.commit rfl)
  refine ⟨_, _, h₅, ?_, ?_, rfl, rfl⟩
  · refine forall_snoc (forall_snoc (forall_snoc (forall_snoc (forall_snoc (List.forall_mem_nil _) ?_) ?_) ?_) ?_) ?_
    all_goals exact ⟨fun _ h => (by cases h), fun _ _ h => (by cases h)⟩
  · intro t ht
    have hne : t ≠ 1 := by
      rintro rfl
      cases ht with
      | step h => cases h
    simp [freshServer, serverWith, hne]

/-- The record is inserted and its transaction commits. 54 million `SELECT`s later the log file has more than `2 ^ 31` bytes, and
recovery takes it for empty: the record is gone. -/
theorem recover_long_log_fails : ¬ ∀ s₀ tr s file, Init s₀ → Trace Step s₀ tr s → (∀ x ∈ tr, Plain x.1 x.2) →
    Holds file s.log → ∃ tables, recover file s.disk = .ok tables ∧ Recovered s₀ s.log tables := by
  intro hall
  obtain ⟨tr, s, htr, hplain, hidle, hlog, hdisk⟩ := run_inserted
  obtain ⟨tr', htr', hplain'⟩ := run_selects htr hplain hidle 54000000
  obtain ⟨hdisk', hlog'⟩ := selects_frame s 54000000
  rw [hlog] at hlog'
  rw [hdisk] at hdisk'
  have hfile : Holds (storedFile (selects s 54000000).log) (selects s 54000000).log := by
    refine holds_storedFile ?_
    intro r hr
    rw [hlog'] at hr
    rcases List.mem_append.mp hr with hr | hr
    · exact (by decide +kernel : ∀ r ∈ insertedLog, Storable r) r hr
    · exact storable_selectRecords (by decide) r hr
  have hlen : (storedFile (selects s 54000000).log).length = 589 + 54000000 * 40 := by
    have hinserted : total (fun r => r.stored.size) insertedLog = 589 := by decide +kernel
    rw [length_storedFile, hlog', total_append, hinserted, total_selectRecords]
  obtain ⟨tables, hrun, hgood⟩ := hall _ _ _ _ freshServer_init htr' hplain' hfile
  rw [recover_of_neg (getFileSize_neg (by rw [hlen]; decide) (by rw [hlen]; decide)), hdisk'] at hrun
  obtain rfl := Except.ok.inj hrun
  obtain ⟨f, hf, hrec⟩ := (hgood "t").2 emptyFile rfl
  obtain rfl := Option.some.inj hf
  rw [hlog', committedChanges_insertedLog] at hrec
  have hslot := congrFun hrec ⟨1, 0⟩
  change none = some (filled 1) at hslot
  cases hslot

/-- The log of an update that is rolled back. -/
def rolledBackLog : List LogRecord := [.beginTxn 1, .update 1 "t" ⟨1, 0⟩ (filled 1) (filled 2), .abort 1]

/-- An update that is rolled back. -/
theorem recover_iff_safe_rollback : ∃ tr s file, Trace Step (serverWith oneFile) tr s ∧ LogRecord.abort 1 ∈ s.log ∧
    Holds file s.log ∧ ∃ tables, recover file s.disk = .ok tables ∧ (Recovered (serverWith oneFile) s.log tables ↔
      ∀ tab f₀ g, (serverWith oneFile).tables tab = some f₀ → s.disk tab = some g →
        ∀ rid, SlotSafe f₀ g s.log tab rid) := by
  have h₁ := Trace.nil.snoc (e := Event.beginTxn 1) (Step.beginTxn (s := serverWith oneFile) rfl)
  have h₂ := h₁.snoc (e := .lock 1 "t" .exclusive) (.lock rfl rfl)
  have h₃ := h₂.snoc (e := .updateLog 1 "t" ⟨1, 0⟩ (filled 2)) (.updateLog rfl List.mem_cons_self rfl rfl)
  have h₄ := h₃.snoc (e := .updateRecord 1) (.updateRecord rfl rfl rfl)
  have h₅ := h₄.snoc (e := .abort 1) (.abort rfl)
  have h₆ := h₅.snoc (e := .undo 1) (.undo rfl rfl rfl rfl)
  have h₇ := h₆.snoc (e := .unlock 1 "t") (.unlock (Or.inr ⟨rfl, rfl⟩))
  have h₈ := h₇.snoc (e := .abortLog 1) (.abortLog rfl rfl fun tab => ?_)
  · have hfile := holds_storedFile (show ∀ r ∈ rolledBackLog, Storable r by decide +kernel)
    refine ⟨_, _, _, h₈, List.mem_append_right _ (List.mem_singleton.mpr rfl), hfile, recover_iff_safe oneFile_init h₈ ?_ hfile (by
      rw [length_storedFile]
      decide +kernel)⟩
    refine forall_snoc (forall_snoc (forall_snoc (forall_snoc (forall_snoc (forall_snoc (forall_snoc (forall_snoc nofun
      ?_) ?_) ?_) ?_) ?_) ?_) ?_) ?_
    case refine_3 =>
      rintro t tab - t' - ⟨e, he, -⟩
      cases he
    all_goals exact nofun
  · rintro ⟨r, hr, hr1⟩
    by_cases htab : tab = "t"
    · subst htab
      cases hr
    · simp [serverWith, htab] at hr

/-- An update goes to disk and is then rolled back. -/
theorem recover_fails : ¬ ∀ s₀ tr s file, Init s₀ → Trace Step s₀ tr s → Holds file s.log →
    ∃ tables, recover file s.disk = .ok tables ∧ Recovered s₀ s.log tables := by
  intro hall
  have h₁ := Trace.nil.snoc (e := Event.beginTxn 1) (Step.beginTxn (s := serverWith oneFile) rfl)
  have h₂ := h₁.snoc (e := .lock 1 "t" .exclusive) (.lock rfl rfl)
  have h₃ := h₂.snoc (e := .updateLog 1 "t" ⟨1, 0⟩ (filled 2)) (.updateLog rfl List.mem_cons_self rfl rfl)
  have h₄ := h₃.snoc (e := .updateRecord 1) (.updateRecord rfl rfl rfl)
  have h₅ := h₄.snoc (e := .writePage "t" 1) (.writePage rfl rfl)
  have h₆ := h₅.snoc (e := .abort 1) (.abort rfl)
  have h₇ := h₆.snoc (e := .undo 1) (.undo rfl rfl rfl rfl)
  have h₈ := h₇.snoc (e := .unlock 1 "t") (.unlock (Or.inr ⟨rfl, rfl⟩))
  have h₉ := h₈.snoc (e := .abortLog 1) (.abortLog rfl rfl fun tab => ?_)
  · have hfile := holds_storedFile (show ∀ r ∈ rolledBackLog, Storable r by decide +kernel)
    obtain ⟨tables, hrun, hgood⟩ := hall _ _ _ _ oneFile_init h₉ hfile
    rw [recover_of_holds hfile (by rw [length_storedFile]; decide +kernel)] at hrun
    obtain ⟨f, hf, hrec⟩ := (hgood "t").2 oneFile rfl
    obtain rfl := Except.ok.inj (hrun.symm.trans rfl)
    obtain rfl := Option.some.inj (hf.symm.trans rfl)
    have h₁₀ := congrFun hrec ⟨1, 0⟩
    change some (filled 2) = some (filled 1) at h₁₀
    exact absurd (List.replicate_inj.mp (Option.some.inj h₁₀)).2 (by decide)
  · rintro ⟨r, hr, hr1⟩
    by_cases htab : tab = "t"
    · subst htab
      cases hr
    · simp [serverWith, htab] at hr

end Rmdb.Recovery
