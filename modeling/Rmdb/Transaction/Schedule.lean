import Rmdb.Execution.Meaning
import Rmdb.Lib.Trace
import Rmdb.Transaction.Agreement
import Rmdb.Transaction.Lock

/-!
# Statements of concurrent transactions

The server while transactions execute `SELECT`, `INSERT`, `UPDATE` and `DELETE` statements. Their threads interleave
in any order; a step is a lock request, the read of a record, the change of a row with its index
entries, or a part of `commit` or `abort`. What a thread does is written down in the program of its
statement (`DMLPlan.prog`); only the lock manager stands in its way. A request that is refused throws, and the
transaction is aborted.

`commit` appends its record, which is the moment at which the transaction is committed, and then gives back the locks
one by one, in any order. `abort` undoes the writes one by one, latest first, before it gives back the first lock.
That `client_handler` calls `commit` again on a single-statement transaction that has been aborted changes
nothing here. There is no DDL, so the catalog is a constant, and a statement that ends with an
error is not followed further.
-/

namespace Rmdb.Transaction

open Lib Record Execution
open Function (update)

/-- What the thread of a transaction is doing. -/
inductive Phase where
  /-- The transaction has not begun. -/
  | idle
  /-- Between two statements. -/
  | running
  /-- In a statement, with what is left of its program. -/
  | executing (stmt : DMLPlan) (prog : StmtProg)
  /-- In `commit`, after the log append. -/
  | committing
  /-- In `abort`. -/
  | aborting
  /-- After `commit` or `abort`. -/
  | done

/-- The state of the server. -/
structure Dbms where
  /-- `db_`, `fhs_` and `ihs_`. -/
  tables : Db
  /-- The queue of every table's lock. -/
  locks : String → Queue
  /-- What every transaction is doing. -/
  phase : TxnId → Phase
  /-- `write_set_` of every transaction, in the order of the writes. -/
  writeSet : TxnId → List WriteRecord
  /-- The statements that a transaction has completed, with the rows that they have returned. This is a history, which no
  step depends on. -/
  finished : TxnId → List (DMLPlan × List Bytes)
  /-- The committed transactions in the order of their commits, each with its statements. This is a history, too. -/
  committed : List (TxnId × List (DMLPlan × List Bytes))

namespace Dbms

/-- The tables on which a transaction holds a lock. -/
def held (s : Dbms) (t : TxnId) : Set String := {k | Holds (s.locks k) t}

/-- The tables on which a transaction holds the exclusive lock. -/
def heldX (s : Dbms) (t : TxnId) : Set String := {k | HoldsX (s.locks k) t}

/-- The label of a step: the transaction, and what its thread does. -/
inductive Action where
  /-- `begin`. -/
  | beginTxn
  /-- A statement begins. -/
  | start (stmt : DMLPlan)
  /-- A lock is granted. -/
  | acquire (k : String) (exclusive : Bool)
  /-- A lock is refused. -/
  | refuse (k : String) (exclusive : Bool)
  /-- A read. -/
  | look (k : String)
  /-- The change of a row. -/
  | write (k : String) (op : RowOp)
  /-- A statement ends. -/
  | finish (stmt : DMLPlan) (result : List Bytes)
  /-- `commit`: the log append. -/
  | commit
  /-- The client asks for `abort`. -/
  | rollback
  /-- `abort`: the latest write is undone. -/
  | undo (w : WriteRecord)
  /-- A lock is given back. -/
  | unlock (k : String)
  /-- The end of `commit` or `abort`. -/
  | leave

/-- `lock_exclusive_on_table` and `lock_shared_on_table`. -/
def lockMode (exclusive : Bool) : LockMode := if exclusive then .exclusive else .shared

/-- `commit` or `abort` gives back the locks. -/
def Leaving (s : Dbms) (t : TxnId) : Prop := s.phase t = .committing ∨ s.phase t = .aborting ∧ s.writeSet t = []

section Steps

variable (db : DbMeta) (D : DoubleOps) (std : StdSort)

/-- The steps. -/
inductive Step (s : Dbms) : TxnId × Action → Dbms → Prop where
  /-- `begin`. -/
  | beginTxn {t} : s.phase t = .idle → Step s (t, .beginTxn) { s with phase := update s.phase t .running }
  /-- A statement begins. -/
  | start {t} {stmt : DMLPlan} : s.phase t = .running → stmt.NoLimit →
      Step s (t, .start stmt) { s with phase := update s.phase t (.executing stmt (stmt.prog db D std)) }
  /-- A lock on a table that is there is granted. -/
  | acquire {t stmt k exclusive rest v queue} : s.phase t = .executing stmt (.acquire k exclusive rest) →
      s.tables k = some v → requestLock (s.locks k) t (lockMode exclusive) = some queue →
      Step s (t, .acquire k exclusive) { s with
        locks := update s.locks k queue
        phase := update s.phase t (.executing stmt rest) }
  /-- A lock is refused. -/
  | refuse {t stmt k exclusive rest v} : s.phase t = .executing stmt (.acquire k exclusive rest) →
      s.tables k = some v → requestLock (s.locks k) t (lockMode exclusive) = none →
      Step s (t, .refuse k exclusive) { s with phase := update s.phase t .aborting }
  /-- A read. -/
  | look {t stmt k rest v} : s.phase t = .executing stmt (.look k rest) → s.tables k = some v →
      Step s (t, .look k) { s with phase := update s.phase t (.executing stmt (rest v)) }
  /-- The change of a row. -/
  | write {t stmt k op rest v v' writes} : s.phase t = .executing stmt (.write k op rest) → s.tables k = some v →
      op.apply v (s.writeSet t) = some (v', writes) →
      Step s (t, .write k op) { s with
        tables := update s.tables k (some v')
        phase := update s.phase t (.executing stmt rest)
        writeSet := update s.writeSet t writes }
  /-- A statement ends. -/
  | finish {t stmt result} : s.phase t = .executing stmt (.ret result) →
      Step s (t, .finish stmt result) { s with
        phase := update s.phase t .running
        finished := update s.finished t (s.finished t ++ [(stmt, result)]) }
  /-- `commit`: the log append. -/
  | commit {t} : s.phase t = .running →
      Step s (t, .commit) { s with
        phase := update s.phase t .committing
        writeSet := update s.writeSet t []
        committed := s.committed ++ [(t, s.finished t)] }
  /-- The client asks for `abort`. -/
  | rollback {t} : s.phase t = .running → Step s (t, .rollback) { s with phase := update s.phase t .aborting }
  /-- `abort`: the latest write is undone. -/
  | undo {t ws w v v'} : s.phase t = .aborting → s.writeSet t = ws ++ [w] → s.tables w.tabName = some v →
      Transaction.undo w v = (v', none) →
      Step s (t, .undo w) { s with
        tables := update s.tables w.tabName (some v')
        writeSet := update s.writeSet t ws }
  /-- A lock is given back. -/
  | unlock {t} (k : String) : s.Leaving t →
      Step s (t, .unlock k) { s with locks := update s.locks k (Transaction.unlock (s.locks k) t) }
  /-- All locks have been given back. -/
  | leave {t} : s.Leaving t → (∀ k, ¬ Holds (s.locks k) t) → Step s (t, .leave) { s with phase := update s.phase t .done }

/-- The server after a start: nobody does anything, and the tables of the catalog stand. -/
structure Init (s : Dbms) : Prop where
  locks : ∀ k, s.locks k = []
  phase : ∀ t, s.phase t = .idle
  writeSet : ∀ t, s.writeSet t = []
  finished : ∀ t, s.finished t = []
  committed : s.committed = []
  tables : ∀ k v, s.tables k = some v → v.Ok ∧ v.Agrees ∧ v.tab.name = k ∧ db.tabs k = some v.tab

end Steps

/-- The records of every table. -/
def bags (s : Dbms) : Bags := fun k =>
  match s.tables k with
  | some v => (v.fh.rids.filterMap v.fh.records : List Bytes)
  | none => 0

/-! ### Locks -/

/-- What holds of locks and write sets between the steps. -/
structure Sane (s : Dbms) : Prop where
  /-- Locks of different transactions are compatible. -/
  queues : ∀ k, QueueOk (s.locks k)
  /-- What is left of a statement keeps to the locks that are held. -/
  guarded : ∀ t stmt p, s.phase t = .executing stmt p → p.Guarded (s.held t) (s.heldX t)
  /-- A table with writes that may be undone is locked exclusively. -/
  holds : ∀ t, ∀ w ∈ s.writeSet t, w.tabName ∈ s.heldX t
  /-- A transaction that has not begun, or has been committed or has ended, has nothing to undo. -/
  quiet : ∀ t, s.phase t = .idle ∨ s.phase t = .committing ∨ s.phase t = .done → s.writeSet t = []
  /-- Locks are on tables that are there. -/
  there : ∀ t, ∀ k ∈ s.held t, (s.tables k).isSome

/-- What a step of others leaves of a transaction. -/
structure Unaffected (s s' : Dbms) (t : TxnId) : Prop where
  held : s'.held t = s.held t
  heldX : s'.heldX t = s.heldX t
  phase : s'.phase t = s.phase t
  writeSet : s'.writeSet t = s.writeSet t
  finished : s'.finished t = s.finished t
  tables : ∀ k ∈ s.held t, s'.tables k = s.tables k

section Locks

variable {db : DbMeta} {D : DoubleOps} {std : StdSort} {s s' : Dbms} {t u : TxnId} {k : String} {queue : Queue} {mode : LockMode}

theorem heldX_subset (s : Dbms) (t : TxnId) : s.heldX t ⊆ s.held t := fun _ h => HoldsX.holds h

/-- Nobody else holds a table that a transaction holds exclusively. -/
theorem Sane.alone (hs : Sane s) (hx : k ∈ s.heldX t) (h : k ∈ s.held u) : u = t := HoldsX.unique (hs.queues k) hx h

/-- A lock that is granted leaves those of others. -/
theorem held_acquire_of_ne (h : requestLock (s.locks k) t mode = some queue) (hne : u ≠ t) {f : TxnId → Phase} :
    held { s with locks := update s.locks k queue, phase := f } u = s.held u ∧
      heldX { s with locks := update s.locks k queue, phase := f } u = s.heldX u := by
  constructor
  · ext k'
    by_cases hk : k' = k
    · subst hk
      simpa [held] using holds_requestLock h hne
    · simp [held, hk]
  · ext k'
    by_cases hk : k' = k
    · subst hk
      simpa [heldX] using holdsX_requestLock_of_ne h hne
    · simp [heldX, hk]

/-- A lock that is given back leaves those of others. -/
theorem held_unlock_of_ne (hne : u ≠ t) :
    held { s with locks := update s.locks k (Transaction.unlock (s.locks k) t) } u = s.held u ∧
      heldX { s with locks := update s.locks k (Transaction.unlock (s.locks k) t) } u = s.heldX u := by
  constructor
  · ext k'
    by_cases hk : k' = k
    · subst hk
      simpa [held] using holds_unlock_of_ne hne
    · simp [held, hk]
  · ext k'
    by_cases hk : k' = k
    · subst hk
      simpa [heldX] using holdsX_unlock_of_ne hne
    · simp [heldX, hk]

/-- What a transaction holds after a lock has been granted to it. -/
theorem held_acquire (h : requestLock (s.locks k) t mode = some queue) (hq : QueueOk (s.locks k)) {f : TxnId → Phase} :
    held { s with locks := update s.locks k queue, phase := f } t = insert k (s.held t) ∧
      s.heldX t ⊆ heldX { s with locks := update s.locks k queue, phase := f } t ∧
      (mode = .exclusive → k ∈ heldX { s with locks := update s.locks k queue, phase := f } t) := by
  refine ⟨?_, ?_, ?_⟩
  · ext k'
    by_cases hk : k' = k
    · subst hk
      simpa [held] using holds_of_requestLock h
    · simp [held, hk]
  · intro k' hk'
    by_cases hk : k' = k
    · subst hk
      simpa [heldX] using HoldsX.requestLock hk' h hq
    · simpa [heldX, hk] using hk'
  · rintro rfl
    simpa [heldX] using holdsX_requestLock h

/-- **A step** touches nothing of another transaction, and none of the tables that it holds. -/
theorem Step.unaffected {a : Action} (h : Step db D std s (t, a) s') (hs : Sane s) (hne : u ≠ t) : Unaffected s s' u := by
  cases h with
  | acquire hphase hv hq =>
    obtain ⟨hheld, hheldX⟩ := held_acquire_of_ne hq hne (s := s)
    exact ⟨hheld, hheldX, Function.update_of_ne hne .., rfl, rfl, fun _ _ => rfl⟩
  | @write _ stmt k op rest v v' writes hphase hv hop =>
    have hx : k ∈ s.heldX t := (hs.guarded t stmt _ hphase).1
    refine ⟨rfl, rfl, Function.update_of_ne hne .., Function.update_of_ne hne .., rfl, ?_⟩
    intro k' hk'
    exact Function.update_of_ne (fun heq : k' = k => hne (hs.alone hx (heq ▸ hk'))) ..
  | @undo _ ws w v v' hphase hw hv hundo =>
    have hx : w.tabName ∈ s.heldX t := hs.holds t w (by rw [hw]; simp)
    refine ⟨rfl, rfl, rfl, Function.update_of_ne hne .., rfl, ?_⟩
    intro k' hk'
    exact Function.update_of_ne (fun heq : k' = w.tabName => hne (hs.alone hx (heq ▸ hk'))) ..
  | unlock k hleave =>
    obtain ⟨hheld, hheldX⟩ := held_unlock_of_ne hne (s := s) (k := k)
    exact ⟨hheld, hheldX, rfl, rfl, rfl, fun _ _ => rfl⟩
  | finish => exact ⟨rfl, rfl, Function.update_of_ne hne .., rfl, Function.update_of_ne hne .., fun _ _ => rfl⟩
  | commit => exact ⟨rfl, rfl, Function.update_of_ne hne .., Function.update_of_ne hne .., rfl, fun _ _ => rfl⟩
  | _ => exact ⟨rfl, rfl, Function.update_of_ne hne .., rfl, rfl, fun _ _ => rfl⟩

/-- A change of a row is one more write. -/
theorem apply_advance {op : RowOp} {v v' : Table} {ws ws' : List WriteRecord} (hok : v.Ok)
    (h : op.apply v ws = some (v', ws')) : Advance True ⟨v, ws⟩ ⟨v', ws'⟩ := by
  have hrun := apply_eq_some h
  cases op with
  | insert values => exact insert_advance hok hrun
  | update setClauses rid =>
    have hadv : Advance True ⟨v, ws⟩ (Session.updateRow setClauses rid ⟨v, ws⟩).1 := updateRow_advance hok
    rwa [show Session.updateRow setClauses rid ⟨v, ws⟩ = _ from hrun] at hadv
  | delete rid =>
    have hadv : Advance True ⟨v, ws⟩ (Session.deleteRow rid ⟨v, ws⟩).1 := deleteRow_advance hok
    rwa [show Session.deleteRow rid ⟨v, ws⟩ = _ from hrun] at hadv

theorem Leaving.writeSet (hs : Sane s) (h : s.Leaving t) : s.writeSet t = [] :=
  h.elim (fun hphase => hs.quiet t (.inr (.inl hphase))) fun hphase => hphase.2

section SaneStep

variable {a : Action}

theorem Sane.queues_step (hs : Sane s) (h : Step db D std s (t, a) s') (k : String) : QueueOk (s'.locks k) := by
  cases h with
  | @acquire _ stmt k' exclusive rest v queue hphase hv hq =>
    by_cases hk : k = k'
    · subst hk
      simpa using (hs.queues k).requestLock hq
    · simpa [hk] using hs.queues k
  | unlock k' hleave =>
    by_cases hk : k = k'
    · subst hk
      simpa using (hs.queues k).unlock t
    · simpa [hk] using hs.queues k
  | _ => exact hs.queues k

theorem Sane.guarded_step (hs : Sane s) (h : Step db D std s (t, a) s') (u : TxnId) (stmt : DMLPlan) (p : StmtProg)
    (hp : s'.phase u = .executing stmt p) : p.Guarded (s'.held u) (s'.heldX u) := by
  by_cases hu : u = t
  · subst hu
    cases h with
    | @acquire _ stmt' k exclusive rest v queue hphase hv hq =>
      obtain ⟨hheld, hmono, hx⟩ := held_acquire hq (hs.queues k) (f := update s.phase u (.executing stmt' rest))
      obtain ⟨rfl, rfl⟩ : stmt' = stmt ∧ rest = p := by simpa using hp
      have hg := hs.guarded u _ _ hphase
      refine Prog.Guarded.mono hheld.ge ?_ hg
      split_ifs with he
      · exact Set.insert_subset (hx (by simp [lockMode, he])) hmono
      · exact hmono
    | start hphase hlimit =>
      obtain ⟨rfl, rfl⟩ : _ = stmt ∧ _ = p := by simpa using hp
      exact DMLPlan.guarded ..
    | look hphase hv =>
      obtain ⟨rfl, rfl⟩ : _ = stmt ∧ _ = p := by simpa using hp
      exact (hs.guarded u _ _ hphase).2 _
    | write hphase hv hop =>
      obtain ⟨rfl, rfl⟩ : _ = stmt ∧ _ = p := by simpa using hp
      exact (hs.guarded u _ _ hphase).2
    | unlock k hleave =>
      rcases hleave with hphase | ⟨hphase, -⟩ <;> rw [show s.phase u = _ from hp] at hphase <;> cases hphase
    | undo hphase =>
      rw [show s.phase u = _ from hp] at hphase
      cases hphase
    | _ => simp at hp
  · have hother := h.unaffected hs hu
    rw [hother.held, hother.heldX]
    exact hs.guarded u stmt p (hother.phase ▸ hp)

theorem Sane.holds_step (hs : Sane s) (hnamed : ∀ k v, s.tables k = some v → v.Ok ∧ v.tab.name = k)
    (h : Step db D std s (t, a) s') (u : TxnId) (w : WriteRecord) (hw : w ∈ s'.writeSet u) : w.tabName ∈ s'.heldX u := by
  by_cases hu : u = t
  · subst hu
    cases h with
    | @acquire _ stmt k exclusive rest v queue hphase hv hq =>
      exact (held_acquire hq (hs.queues k)).2.1 (hs.holds u w hw)
    | @write _ stmt k op rest v v' writes hphase hv hop =>
      obtain ⟨hok, hname⟩ := hnamed k v hv
      obtain ⟨ws, hws, hnames, -⟩ := (apply_advance hok hop).writes
      simp only [Function.update_self] at hw
      rw [show writes = s.writeSet u ++ ws from hws] at hw
      rcases List.mem_append.mp hw with hw | hw
      · exact hs.holds u w hw
      · rw [hnames w hw, show (Session.mk v (s.writeSet u)).table.tab.name = k from hname]
        exact (hs.guarded u _ _ hphase).1
    | commit => simp at hw
    | @undo _ ws w' v v' hphase hws hv hundo =>
      simp only [Function.update_self] at hw
      exact hs.holds u w (by rw [hws]; exact List.mem_append_left _ hw)
    | unlock k hleave =>
      rw [show s.writeSet u = [] from hleave.writeSet hs] at hw
      cases hw
    | _ => exact hs.holds u w hw
  · have hother := h.unaffected hs hu
    rw [hother.heldX]
    exact hs.holds u w (hother.writeSet ▸ hw)

theorem Sane.quiet_step (hs : Sane s) (h : Step db D std s (t, a) s') (u : TxnId)
    (hphase' : s'.phase u = .idle ∨ s'.phase u = .committing ∨ s'.phase u = .done) : s'.writeSet u = [] := by
  by_cases hu : u = t
  · subst hu
    cases h with
    | commit => simp
    | leave hleave => exact Leaving.writeSet (s := s) hs hleave
    | unlock k hleave => exact Leaving.writeSet (s := s) hs hleave
    | undo hphase =>
      rw [show s.phase u = _ from hphase] at hphase'
      simp at hphase'
    | _ => simp at hphase'
  · have hother := h.unaffected hs hu
    rw [hother.writeSet]
    exact hs.quiet u (hother.phase ▸ hphase')

theorem Sane.there_step (hs : Sane s) (h : Step db D std s (t, a) s') (u : TxnId) (k : String) (hk : k ∈ s'.held u) :
    (s'.tables k).isSome := by
  have hold : k ∈ s.held u → (s'.tables k).isSome := fun hk => by
    have hsome := hs.there u k hk
    cases h with
    | write | undo =>
      simp only [Function.update_apply]
      split_ifs
      · rfl
      · exact hsome
    | _ => exact hsome
  by_cases hu : u = t
  · subst hu
    cases h with
    | @acquire _ stmt k' exclusive rest v queue hphase hv hq =>
      rw [(held_acquire hq (hs.queues k')).1] at hk
      rcases hk with rfl | hk
      · exact Option.isSome_iff_exists.mpr ⟨v, hv⟩
      · exact hold hk
    | unlock k' hleave =>
      refine hold ?_
      by_cases hkk : k = k'
      · subst hkk
        exact absurd (by simpa [held] using hk) (not_holds_unlock (hs.queues k))
      · simpa [held, hkk] using hk
    | _ => exact hold hk
  · exact hold ((h.unaffected hs hu).held ▸ hk)

/-- Every step keeps the server sane. -/
theorem Sane.step (hs : Sane s) (hnamed : ∀ k v, s.tables k = some v → v.Ok ∧ v.tab.name = k)
    (h : Step db D std s (t, a) s') : Sane s' where
  queues := hs.queues_step h
  guarded := hs.guarded_step h
  holds := hs.holds_step hnamed h
  quiet := hs.quiet_step h
  there := hs.there_step h

end SaneStep

theorem Init.sane (h : Init db s) : Sane s where
  queues k := by rw [h.locks]; exact queueOk_nil
  guarded t stmt p hp := by rw [h.phase] at hp; cases hp
  holds t w hw := by rw [h.writeSet] at hw; cases hw
  quiet t _ := h.writeSet t
  there t k hk := by
    obtain ⟨r, hr, -⟩ := hk
    rw [h.locks] at hr
    cases hr

end Locks

end Dbms

end Rmdb.Transaction
