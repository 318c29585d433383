import Rmdb.Transaction.LockManager

/-!
# Sessions

The threads of `client_handler`, one for each client, over one lock manager, one transaction
manager and one log. A request is read; `SetTransaction` keeps the session's transaction or begins
another one, of its own and in implicit mode; the statement runs inside a `try`; the answer is
written; and a transaction in implicit mode is committed. `TransactionAbortException`, which only
a lock request throws, is caught by a rollback, any other exception by an error message. An exception
outside of the `try`, in a handler or in the commit at the end, ends the process, and so does
`crash`: a run goes no further.

The threads interleave in any order. A step is what a thread does between two points where another
one can come in. What a statement does to the tables is left open: it asks for locks, it appends to
the log, and it may end at any point, with an exception or without.
-/

namespace Rmdb.Server

open Lib Transaction
open Function (update)

/-- A client, as the thread that serves it. -/
abbrev ClientId := ℕ

/-- What a request asks for, as far as `client_handler` tells the difference. -/
inductive Stmt where
  /-- Nothing: a parse error, an empty request, `HELP`. -/
  | nothing
  /-- `BEGIN`. -/
  | begin
  /-- `COMMIT`. -/
  | commit
  /-- `ABORT` or `ROLLBACK`. -/
  | abort
  /-- Any other statement. -/
  | other
deriving DecidableEq

/-- The type of a log record. -/
inductive LogType where
  /-- `begin`. -/
  | begin
  /-- `commit`. -/
  | commit
  /-- `ABORT`. -/
  | abort
  /-- `INSERT`, `DELETE` or `UPDATE`. -/
  | change
deriving DecidableEq

/-- Does the record end its transaction? -/
def LogType.terminal : LogType → Bool
  | .commit | .abort => true
  | _ => false

/-- A step of `TransactionManager::commit` or `TransactionManager::abort`. -/
inductive Op where
  /-- `add_log_to_buffer`. -/
  | log (type : LogType)
  /-- The rollback of the writes. -/
  | undo
  /-- The lock set is copied. -/
  | collect
  /-- `unlock`. -/
  | unlock (item : LockDataId)
  /-- `set_state`. -/
  | setState (state : TransactionState)
deriving DecidableEq

/-- `TransactionManager::commit`. -/
def commitOps : List Op := [.log .commit, .collect, .setState .committed]

/-- `TransactionManager::abort`. -/
def abortOps : List Op := [.setState .aborted, .undo, .collect, .log .abort]

/-- Where a commit or a rollback is called. -/
inductive Region where
  /-- By a statement, in the `try`. -/
  | statement
  /-- In the handler of `TransactionAbortException`. -/
  | handler
  /-- At the end of a request. -/
  | autoCommit
deriving DecidableEq

/-- Where a thread is. -/
inductive Phase where
  /-- In `read`. -/
  | waiting
  /-- A request has been read; `SetTransaction` is next. -/
  | setting (stmt : Stmt)
  /-- The request has been parsed. -/
  | parsed (stmt : Stmt)
  /-- In the `try`, in a statement on tables. -/
  | running
  /-- In a commit or a rollback, with these steps to go. -/
  | ops (region : Region) (ops : List Op)
  /-- Before `write`. -/
  | replying
  /-- The loop has been left. -/
  | left

/-- The server. -/
structure State where
  /-- The lock manager, with `state_` and `lock_set_` of the transactions. -/
  lockManager : LockManager
  /-- `txn_mode_`: is the transaction explicit? -/
  txnMode : TxnId → Bool
  /-- `next_txn_id_`. -/
  nextTxnId : TxnId
  /-- The records that have been appended to the log, with their transactions. -/
  log : List (TxnId × LogType)
  /-- `txn_id` of each client. -/
  txnId : ClientId → Option TxnId
  /-- Where each client is. -/
  phase : ClientId → Phase
  /-- The client that has begun a transaction. This is a history, which no step depends on. -/
  startedBy : TxnId → Option ClientId

/-- What a step of a client was. -/
inductive Event where
  /-- A request is read. -/
  | request (stmt : Stmt)
  /-- `exit`, `safe_exit`, no more bytes, or an error of `read`: the loop is left. -/
  | leave
  /-- `SetTransaction` keeps the transaction. -/
  | keepTxn
  /-- `SetTransaction` begins a transaction. -/
  | beginTxn
  /-- The statement is started. -/
  | execute (stmt : Stmt)
  /-- A lock request is granted. -/
  | grant
  /-- A lock request throws `TransactionAbortException`. -/
  | refuse
  /-- A change is appended to the log. -/
  | change
  /-- The statement returns, or throws another exception. -/
  | finish
  /-- A step of a commit or a rollback. -/
  | op (op : Op)
  /-- A step of a commit or a rollback throws, after the record has been put into the log buffer or before. -/
  | throws (op : Op) (appended : Bool)
  /-- A commit or a rollback returns. -/
  | done
  /-- The answer is written. -/
  | reply
  /-- `write` fails: the loop is left. -/
  | replyFails
deriving DecidableEq

/-- `COMMITTED` or `ABORTED`. -/
def Terminal (state : TransactionState) : Prop := state = .committed ∨ state = .aborted

instance (state : TransactionState) : Decidable (Terminal state) := inferInstanceAs (Decidable (_ ∨ _))

/-- The state of a transaction. -/
def State.state (s : State) (t : TxnId) : TransactionState := s.lockManager.state t

/-- The thread goes on. -/
def State.goto (s : State) (c : ClientId) (phase : Phase) : State := { s with phase := update s.phase c phase }

/-- The lock manager changes. -/
def State.setLockManager (s : State) (lm : LockManager) : State := { s with lockManager := lm }

/-- A record is appended. -/
def State.append (s : State) (t : TxnId) (type : LogType) : State := { s with log := s.log ++ [(t, type)] }

/-- Where a thread goes from the start of a statement. -/
def Stmt.next : Stmt → Phase
  | .nothing | .begin => .replying
  | .commit => .ops .statement commitOps
  | .abort => .ops .statement abortOps
  | .other => .running

/-- Where a thread goes from the end of a commit or a rollback. -/
def Region.next : Region → Phase
  | .statement | .handler => .replying
  | .autoCommit => .waiting

/-- What a step of a commit or a rollback does. -/
def Op.exec (t : TxnId) (s : State) : Op → State
  | .log type => s.append t type
  | .undo => s
  | .collect => s
  | .unlock item => s.setLockManager (s.lockManager.unlock t item).1
  | .setState state => s.setLockManager { s.lockManager with state := update s.lockManager.state t state }

/-- What is left to do after a step: the locks that have been copied are released one by one, in the order of the hash
set. -/
inductive Op.After (locks : Finset LockDataId) : Op → List Op → List Op → Prop where
  /-- The unlocks come before the rest. -/
  | collect {items : List LockDataId} {rest : List Op} : (∀ item, item ∈ items ↔ item ∈ locks) →
      Op.After locks .collect rest (items.map .unlock ++ rest)
  /-- The rest. -/
  | next {op : Op} {rest : List Op} : op ≠ .collect → Op.After locks op rest rest

/-- The transaction that `SetTransaction` begins. -/
def State.beginTxn (s : State) (c : ClientId) : State :=
  let t := s.nextTxnId
  { s with
    lockManager := { s.lockManager with state := update s.lockManager.state t .growing }
    txnMode := update s.txnMode t false
    nextTxnId := t + 1
    log := s.log ++ [(t, .begin)]
    txnId := update s.txnId c (some t)
    startedBy := update s.startedBy t (some c) }

/-- The steps of the threads. -/
inductive Step (s : State) : ClientId × Event → State → Prop where
  /-- A request is read. -/
  | request {c stmt} : s.phase c = .waiting → Step s (c, .request stmt) (s.goto c (.setting stmt))
  /-- The loop is left. -/
  | leave {c} : s.phase c = .waiting → Step s (c, .leave) (s.goto c .left)
  /-- `SetTransaction` keeps a transaction that has not ended. -/
  | keepTxn {c stmt t} : s.phase c = .setting stmt → s.txnId c = some t → ¬ Terminal (s.state t) →
      Step s (c, .keepTxn) (s.goto c (.parsed stmt))
  /-- `SetTransaction` begins a transaction if there is none, or the last one has ended. -/
  | beginTxn {c stmt} : s.phase c = .setting stmt → (∀ t, s.txnId c = some t → Terminal (s.state t)) →
      Step s (c, .beginTxn) ((s.beginTxn c).goto c (.parsed stmt))
  /-- The statement is started; `BEGIN` makes the transaction explicit. -/
  | execute {c stmt t} : s.phase c = .parsed stmt → s.txnId c = some t →
      Step s (c, .execute stmt)
        ({ s with txnMode := if stmt = Stmt.begin then update s.txnMode t true else s.txnMode }.goto c stmt.next)
  /-- A lock is granted. -/
  | grant {c t item mode lm} : s.phase c = .running → s.txnId c = some t → s.lockManager.request t item mode = (lm, none) →
      Step s (c, .grant) (s.setLockManager lm)
  /-- A lock is refused, and the handler rolls back. -/
  | refuse {c t item mode lm reason} : s.phase c = .running → s.txnId c = some t →
      s.lockManager.request t item mode = (lm, some reason) →
      Step s (c, .refuse) ((s.setLockManager lm).goto c (.ops .handler abortOps))
  /-- A change is logged. -/
  | change {c t} : s.phase c = .running → s.txnId c = some t → Step s (c, .change) (s.append t .change)
  /-- The statement ends. -/
  | finish {c} : s.phase c = .running → Step s (c, .finish) (s.goto c .replying)
  /-- A step of a commit or a rollback. -/
  | op {c t region op rest rest'} : s.phase c = .ops region (op :: rest) → s.txnId c = some t →
      op.After (s.lockManager.lockSet t) rest rest' → Step s (c, .op op) ((op.exec t s).goto c (.ops region rest'))
  /-- The log or the rollback throws, in the `try`. -/
  | throws {c t op rest appended} : s.phase c = .ops .statement (op :: rest) → s.txnId c = some t →
      (op = .undo ∧ appended = false ∨ ∃ type, op = .log type) →
      Step s (c, .throws op appended) ((if appended then op.exec t s else s).goto c .replying)
  /-- The commit or the rollback has ended. -/
  | done {c region} : s.phase c = .ops region [] → Step s (c, .done) (s.goto c region.next)
  /-- The answer is written, and an implicit transaction is committed. -/
  | reply {c t} : s.phase c = .replying → s.txnId c = some t →
      Step s (c, .reply) (s.goto c (if s.txnMode t then .waiting else .ops .autoCommit commitOps))
  /-- `write` fails, and the loop is left before the commit. -/
  | replyFails {c} : s.phase c = .replying → Step s (c, .replyFails) (s.goto c .left)

/-- The server as it starts. -/
def initial : State where
  lockManager := ⟨fun _ => none, fun _ => .default, fun _ => ∅, fun _ => []⟩
  txnMode _ := false
  nextTxnId := 0
  log := []
  txnId _ := none
  phase _ := .waiting
  startedBy _ := none

/-! ### What a step changes -/

/-- The records in the log that end the transaction. -/
def State.ends (s : State) (t : TxnId) : ℕ := s.log.countP fun r => r.1 = t && r.2.terminal

/-- What a transaction is seen as is the same. -/
structure SameTxn (s s' : State) (t : TxnId) : Prop where
  state : s'.state t = s.state t
  txnMode : s'.txnMode t = s.txnMode t
  ends : s'.ends t = s.ends t
  lockSet : s'.lockManager.lockSet t = s.lockManager.lockSet t
  startedBy : s'.startedBy t = s.startedBy t

section Frame

variable {s s' : State} {c : ClientId} {t t' : TxnId} {e : Event}

theorem SameTxn.refl (s : State) (t : TxnId) : SameTxn s s t := ⟨rfl, rfl, rfl, rfl, rfl⟩

theorem SameTxn.goto (h : SameTxn s s' t) (phase : Phase) : SameTxn s (s'.goto c phase) t := ⟨h.1, h.2, h.3, h.4, h.5⟩

@[simp] theorem ends_goto (s : State) (c : ClientId) (phase : Phase) (t : TxnId) : (s.goto c phase).ends t = s.ends t := rfl

@[simp] theorem ends_setLockManager (s : State) (lm : LockManager) (t : TxnId) : (s.setLockManager lm).ends t = s.ends t := rfl

theorem ends_append (s : State) (t t' : TxnId) (type : LogType) :
    (s.append t' type).ends t = s.ends t + if t' = t ∧ type.terminal = true then 1 else 0 := by
  rw [State.ends, State.append, List.countP_append, State.ends, List.countP_singleton]
  simp only [Bool.and_eq_true, decide_eq_true_eq]

theorem sameTxn_append (hne : t ≠ t') (type : LogType) : SameTxn s (s.append t' type) t := by
  refine ⟨rfl, rfl, ?_, rfl, rfl⟩
  rw [ends_append, if_neg fun h => hne h.1.symm, Nat.add_zero]

theorem exec_phase (op : Op) (t : TxnId) (s : State) : (op.exec t s).phase = s.phase := by cases op <;> rfl

theorem exec_txnId (op : Op) (t : TxnId) (s : State) : (op.exec t s).txnId = s.txnId := by cases op <;> rfl

theorem exec_txnMode (op : Op) (t : TxnId) (s : State) : (op.exec t s).txnMode = s.txnMode := by cases op <;> rfl

theorem exec_nextTxnId (op : Op) (t : TxnId) (s : State) : (op.exec t s).nextTxnId = s.nextTxnId := by cases op <;> rfl

theorem exec_startedBy (op : Op) (t : TxnId) (s : State) : (op.exec t s).startedBy = s.startedBy := by cases op <;> rfl

/-- A step of a commit or a rollback changes its own transaction only. -/
theorem sameTxn_exec (hne : t ≠ t') (op : Op) : SameTxn s (op.exec t' s) t := by
  cases op with
  | log type => exact sameTxn_append hne type
  | undo | collect => exact .refl s t
  | setState state => exact ⟨Function.update_of_ne hne _ _, rfl, rfl, rfl, rfl⟩
  | unlock item =>
    rcases hun : s.lockManager.unlock t' item with ⟨lm, b⟩
    rcases LockManager.unlock_cases hun with ⟨-, hlm⟩ | ⟨-, -, hstate, -, hlocks, -⟩
    · refine ⟨?_, rfl, rfl, ?_, rfl⟩ <;> simp only [Op.exec, State.setLockManager, State.state, hun, hlm]
    · refine ⟨?_, rfl, rfl, ?_, rfl⟩
      · simp only [Op.exec, State.setLockManager, State.state, hun, hstate t hne]
      · simp only [Op.exec, State.setLockManager, hun, hlocks, Function.update_of_ne hne]

/-- A lock request changes the lock set of its own transaction only. -/
theorem sameTxn_request {item : LockDataId} {mode : LockMode} {lm : LockManager} {out : Option AbortReason} (hne : t ≠ t')
    (h : s.lockManager.request t' item mode = (lm, out)) : SameTxn s (s.setLockManager lm) t := by
  obtain ⟨hstate, -, ⟨-, hlm | hlm⟩ | ⟨-, -, hlm, -⟩ | ⟨-, -, queue, -, hlm⟩⟩ := LockManager.request_cases h
  · subst hlm
    exact .refl s t
  · subst hlm
    exact ⟨rfl, rfl, rfl, rfl, rfl⟩
  · subst hlm
    exact ⟨rfl, rfl, rfl, rfl, rfl⟩
  · subst hlm
    exact ⟨rfl, rfl, rfl, Function.update_of_ne hne _ _, rfl⟩

/-- `SetTransaction` changes the transaction that it begins only. -/
theorem sameTxn_beginTxn (hne : t ≠ s.nextTxnId) : SameTxn s (s.beginTxn c) t :=
  ⟨Function.update_of_ne hne _ _, Function.update_of_ne hne _ _, (sameTxn_append hne .begin).ends, rfl,
    Function.update_of_ne hne _ _⟩

/-- **Frame**: a step of a client changes its own transaction only, and the one it begins. -/
theorem Step.sameTxn (h : Step s (c, e) s') (hne : s.txnId c ≠ some t) (hnew : e = .beginTxn → t ≠ s.nextTxnId) :
    SameTxn s s' t := by
  have hother : ∀ {t'}, s.txnId c = some t' → t ≠ t' := fun ht' heq => hne (heq ▸ ht')
  cases h with
  | request | leave | keepTxn | finish | done | reply | replyFails => exact (SameTxn.refl s t).goto _
  | beginTxn => exact (sameTxn_beginTxn (hnew rfl)).goto _
  | execute _ ht =>
    refine ⟨rfl, ?_, rfl, rfl, rfl⟩
    simp only [State.goto]
    split
    · exact Function.update_of_ne (hother ht) _ _
    · rfl
  | grant _ ht hreq => exact sameTxn_request (hother ht) hreq
  | refuse _ ht hreq => exact (sameTxn_request (hother ht) hreq).goto _
  | change _ ht => exact sameTxn_append (hother ht) _
  | op _ ht => exact (sameTxn_exec (hother ht) _).goto _
  | throws _ ht =>
    refine SameTxn.goto ?_ _
    split
    · exact sameTxn_exec (hother ht) _
    · exact .refl s t

/-- A step of a client leaves the threads of the others where they are. -/
theorem Step.others (h : Step s (c, e) s') {c' : ClientId} (hne : c' ≠ c) : s'.phase c' = s.phase c' ∧ s'.txnId c' = s.txnId c' := by
  cases h with
  | grant | change => exact ⟨rfl, rfl⟩
  | request | leave | keepTxn | finish | done | reply | replyFails | execute | refuse =>
    exact ⟨Function.update_of_ne hne _ _, rfl⟩
  | beginTxn => exact ⟨Function.update_of_ne hne _ _, Function.update_of_ne hne _ _⟩
  | op => exact ⟨(Function.update_of_ne hne _ _).trans (congrFun (exec_phase ..) c'), congrFun (exec_txnId ..) c'⟩
  | throws =>
    split
    · exact ⟨(Function.update_of_ne hne _ _).trans (congrFun (exec_phase ..) c'), congrFun (exec_txnId ..) c'⟩
    · exact ⟨Function.update_of_ne hne _ _, rfl⟩

end Frame

/-! ### Whose a transaction is -/

/-- A thread that has no transaction yet has not got past `SetTransaction`. -/
def Phase.early : Phase → Prop
  | .waiting | .setting _ | .left => True
  | _ => False

/-- Every session has transactions of its own; one that has not begun has no state, no record and no lock. -/
structure Owned (s : State) : Prop where
  owner : ∀ c t, s.txnId c = some t → s.startedBy t = some c
  known : ∀ c t, s.startedBy t = some c → t < s.nextTxnId
  unborn : ∀ t, s.startedBy t = none → s.state t = .default ∧ s.ends t = 0 ∧ s.lockManager.lockSet t = ∅
  locks : s.lockManager.Ok
  early : ∀ c, s.txnId c = none → (s.phase c).early

section Owned

variable {s s' : State} {c : ClientId} {t : TxnId} {e : Event}

theorem Owned.initial : Owned initial where
  owner c t h := by cases h
  known c t h := by cases h
  unborn t _ := ⟨rfl, rfl, rfl⟩
  locks := LockManager.Initial.ok ⟨fun _ => rfl, fun _ => rfl, fun _ => rfl⟩
  early c _ := trivial

theorem exec_locks (op : Op) (t : TxnId) (h : s.lockManager.Ok) : (op.exec t s).lockManager.Ok := by
  cases op with
  | log | undo | collect => exact h
  | setState => exact h.of_eq rfl rfl
  | unlock item => exact h.unlock (b := (s.lockManager.unlock t item).2) rfl

theorem Step.locks (h : Step s (c, e) s') (hok : s.lockManager.Ok) : s'.lockManager.Ok := by
  cases h with
  | grant _ _ hreq | refuse _ _ hreq => exact hok.request hreq
  | beginTxn => exact hok.of_eq rfl rfl
  | op => exact exec_locks _ _ hok
  | throws =>
    split
    · exact exec_locks _ _ hok
    · exact hok
  | _ => exact hok

/-- The transaction of a thread changes in `SetTransaction` only. -/
theorem Step.txn_cases (h : Step s (c, e) s') :
    (s'.txnId c = s.txnId c ∧ s'.startedBy = s.startedBy ∧ s'.nextTxnId = s.nextTxnId ∧ e ≠ .beginTxn) ∨
    (s'.txnId c = some s.nextTxnId ∧ s'.startedBy = update s.startedBy s.nextTxnId (some c) ∧
      s'.nextTxnId = s.nextTxnId + 1 ∧ e = .beginTxn) := by
  cases h with
  | beginTxn => exact .inr ⟨Function.update_self .., rfl, rfl, rfl⟩
  | op => exact .inl ⟨congrFun (exec_txnId ..) c, exec_startedBy .., exec_nextTxnId .., nofun⟩
  | throws =>
    refine .inl ?_
    split
    · exact ⟨congrFun (exec_txnId ..) c, exec_startedBy .., exec_nextTxnId .., nofun⟩
    · exact ⟨rfl, rfl, rfl, nofun⟩
  | _ => exact .inl ⟨rfl, rfl, rfl, nofun⟩

/-- A thread without a transaction stays before `SetTransaction`. -/
theorem Owned.early_step (h : Owned s) (hstep : Step s (c, e) s') (hnone : s'.txnId c = none) : (s'.phase c).early := by
  rcases hstep.txn_cases with ⟨hsame, -⟩ | ⟨hnew, -⟩
  · have hnone' := hsame.symm.trans hnone
    have hearly := h.early c hnone'
    have hsome : ∀ {t}, s.txnId c ≠ some t := fun ht => by rw [hnone'] at ht; cases ht
    cases hstep with
    | request | leave => simp only [State.goto, Function.update_self, Phase.early]
    | beginTxn => cases (Function.update_self c _ s.txnId).symm.trans hnone
    | keepTxn _ ht | execute _ ht | grant _ ht | refuse _ ht | change _ ht | op _ ht | throws _ ht | reply _ ht =>
      exact absurd ht hsome
    | finish hphase | done hphase | replyFails hphase =>
      rw [hphase] at hearly
      exact hearly.elim
  · rw [hnew] at hnone
    cases hnone

theorem Owned.step (h : Owned s) (hstep : Step s (c, e) s') : Owned s' := by
  refine ⟨?_, ?_, ?_, hstep.locks h.locks, ?_⟩
  · intro c' t ht
    rcases hstep.txn_cases with ⟨htxn, hstarted, -⟩ | ⟨htxn, hstarted, -⟩
    · have hold : s.txnId c' = some t := by
        by_cases hc : c' = c
        · rw [hc] at ht ⊢
          exact htxn.symm.trans ht
        · exact (hstep.others hc).2.symm.trans ht
      rw [hstarted]
      exact h.owner c' t hold
    · rw [hstarted]
      by_cases hc : c' = c
      · rw [hc, htxn] at ht
        rw [hc, ← Option.some.inj ht, Function.update_self]
      · have hold : s.txnId c' = some t := (hstep.others hc).2.symm.trans ht
        have hlt := h.known c' t (h.owner c' t hold)
        rw [Function.update_of_ne (Nat.ne_of_lt hlt)]
        exact h.owner c' t hold
  · intro c' t ht
    rcases hstep.txn_cases with ⟨-, hstarted, hnext, -⟩ | ⟨-, hstarted, hnext, -⟩
    · rw [hnext]
      rw [hstarted] at ht
      exact h.known c' t ht
    · rw [hnext]
      rw [hstarted] at ht
      by_cases hnew : t = s.nextTxnId
      · exact hnew ▸ Nat.lt_succ_self _
      · rw [Function.update_of_ne hnew] at ht
        exact Nat.lt_succ_of_lt (h.known c' t ht)
  · intro t hnone
    obtain ⟨hold, hnew⟩ : s.startedBy t = none ∧ (e = .beginTxn → t ≠ s.nextTxnId) := by
      rcases hstep.txn_cases with ⟨-, hstarted, -, he⟩ | ⟨-, hstarted, -⟩
      · exact ⟨hstarted ▸ hnone, fun hbegin => absurd hbegin he⟩
      · rw [hstarted] at hnone
        by_cases hnew : t = s.nextTxnId
        · rw [hnew, Function.update_self] at hnone
          cases hnone
        · rw [Function.update_of_ne hnew] at hnone
          exact ⟨hnone, fun _ => hnew⟩
    have hsame := hstep.sameTxn (fun ht => by rw [h.owner c t ht] at hold; cases hold) hnew
    rw [hsame.state, hsame.ends, hsame.lockSet]
    exact h.unborn t hold
  · intro c' hnone
    by_cases hc : c' = c
    · rw [hc] at hnone ⊢
      exact h.early_step hstep hnone
    · obtain ⟨hphase, htxn⟩ := hstep.others hc
      rw [hphase]
      exact h.early c' (htxn ▸ hnone)

/-- A number that has not been given out is nobody's. -/
theorem Owned.fresh (h : Owned s) : s.startedBy s.nextTxnId = none := by
  rcases hstarted : s.startedBy s.nextTxnId with _ | c
  · rfl
  · exact absurd (h.known c _ hstarted) (Nat.lt_irrefl _)

/-- A transaction stays with the session that has begun it. -/
theorem Owned.started (h : Owned s) (hstep : Step s (c, e) s') {c' : ClientId} (ht : s.startedBy t = some c') :
    s'.startedBy t = some c' := by
  rcases hstep.txn_cases with ⟨-, hstarted, -⟩ | ⟨-, hstarted, -⟩
  · rw [hstarted]
    exact ht
  · rw [hstarted, Function.update_of_ne (Nat.ne_of_lt (h.known c' t ht))]
    exact ht

theorem Owned.started_run (h : Owned s) {tr : List (State × (ClientId × Event))} (htr : Trace Step s tr s')
    (ht : s.startedBy t = some c) : s'.startedBy t = some c := by
  refine (htr.inv' (I := fun s => Owned s ∧ s.startedBy t = some c) ⟨h, ht⟩ fun ha hstep => ?_).2
  exact ⟨ha.1.step hstep, ha.1.started hstep ha.2⟩

/-- A session's transactions after a step of its own: the same ones, or one more. -/
theorem Owned.started_cases (hstep : Step s (c, e) s') {c' : ClientId} (ht : s'.startedBy t = some c') :
    s.startedBy t = some c' ∨ t = s.nextTxnId ∧ c' = c ∧ s'.txnId c = some t := by
  rcases hstep.txn_cases with ⟨-, hstarted, -⟩ | ⟨htxn, hstarted, -⟩
  · exact .inl (hstarted ▸ ht)
  · rw [hstarted] at ht
    by_cases hnew : t = s.nextTxnId
    · rw [hnew, Function.update_self] at ht
      exact .inr ⟨hnew, (Option.some.inj ht).symm, hnew ▸ htxn⟩
    · rw [Function.update_of_ne hnew] at ht
      exact .inl ht

/-- A step of another session leaves the transactions of a session alone. -/
theorem Owned.sameTxn_of_ne (h : Owned s) (hstep : Step s (c, e) s') {c' : ClientId} (hne : c' ≠ c)
    (ht : s.startedBy t = some c') : SameTxn s s' t := by
  refine hstep.sameTxn (fun htxn => hne ?_) fun _ => Nat.ne_of_lt (h.known c' t ht)
  exact Option.some.inj (ht.symm.trans (h.owner c t htxn))

/-- A transaction is replaced in `SetTransaction` when it has ended. -/
theorem Step.replaces (hstep : Step s (c, e) s') (hcur : s.txnId c = some t) (hnew : s'.txnId c ≠ some t) :
    ∃ stmt, s.phase c = .setting stmt ∧ Terminal (s.state t) ∧ s' = (s.beginTxn c).goto c (.parsed stmt) := by
  cases hstep with
  | beginTxn hphase hterm => exact ⟨_, hphase, hterm t hcur, rfl⟩
  | op => exact absurd ((congrFun (exec_txnId ..) c).trans hcur) hnew
  | throws =>
    refine absurd ?_ hnew
    split
    · exact (congrFun (exec_txnId ..) c).trans hcur
    · exact hcur
  | _ => exact absurd hcur hnew

/-- So does a step of the session itself with its earlier transactions. -/
theorem Owned.sameTxn_of_old (h : Owned s) (hstep : Step s (c, e) s') (ht : s.startedBy t = some c)
    (hold : s'.txnId c ≠ some t) : SameTxn s s' t := by
  have hnew := Nat.ne_of_lt (h.known c t ht)
  by_cases hcur : s.txnId c = some t
  · obtain ⟨stmt, -, -, rfl⟩ := hstep.replaces hcur hold
    exact (sameTxn_beginTxn hnew).goto _
  · exact hstep.sameTxn hcur fun _ => hnew

theorem Owned.run {tr : List (State × (ClientId × Event))} (htr : Trace Step Server.initial tr s) : Owned s :=
  htr.inv' .initial fun hs hstep => hs.step hstep

end Owned

end Rmdb.Server
