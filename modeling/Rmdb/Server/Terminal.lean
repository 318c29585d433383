import Rmdb.Server.Session

/-!
# The end of a transaction

A transaction can be ended from three places: by a statement, by the handler of
`TransactionAbortException`, and by the commit that follows a request in implicit mode. The last
one does not ask whether the transaction has ended already. In a session in which statements end,
and lock conflicts roll back, explicit transactions only, every transaction gets one `COMMIT` or
`ABORT` record at most, and its state does not change after that (`terminal_once`).
-/

namespace Rmdb.Server

open Lib Transaction
open Function (update)

variable {s s' : State} {c : ClientId} {t : TxnId} {e : Event}

/-- The session is in an explicit transaction. -/
def State.explicit (s : State) (c : ClientId) : Prop := ∀ t, s.txnId c = some t → s.txnMode t = true

/-- **The condition on a step**: `COMMIT`, `ABORT` and `ROLLBACK`, and lock conflicts, are in explicit transactions, and no
log write of a `COMMIT` statement throws when the record is in the buffer already. -/
def Orderly (s : State) (c : ClientId) : Event → Prop
  | .execute stmt => stmt = .commit ∨ stmt = .abort → s.explicit c
  | .refuse => s.explicit c
  | .throws op appended => op = .log .commit → appended = false
  | _ => True

/-! ### One session -/

/-- A step that releases locks. -/
def Op.releases (op : Op) : Prop := op = .collect ∨ ∃ item, op = .unlock item

/-- How far a commit or a rollback has come. -/
inductive Stage (s : State) (t : TxnId) : List Op → Prop where
  /-- Nothing has been done. -/
  | start {ops : List Op} : ops = commitOps ∨ ops = abortOps → ¬ Terminal (s.state t) → s.ends t = 0 → Stage s t ops
  /-- In a commit, after the record. -/
  | committing {pre : List Op} : (∀ op ∈ pre, op.releases) → ¬ Terminal (s.state t) → s.ends t = 1 →
      Stage s t (pre ++ [.setState .committed])
  /-- In a rollback, before the record. -/
  | aborting {pre : List Op} : (∀ op ∈ pre, op = .undo ∨ op.releases) → Terminal (s.state t) → s.ends t = 0 →
      Stage s t (pre ++ [.log .abort])
  /-- Everything has been done. -/
  | finished : Terminal (s.state t) → s.ends t = 1 → Stage s t []

/-- Between two operations: no record, or the transaction has ended with at most one. -/
def Settled (s : State) (t : TxnId) : Prop := ¬ Terminal (s.state t) ∧ s.ends t = 0 ∨ Terminal (s.state t) ∧ s.ends t ≤ 1

/-- What holds of the transaction of a session, wherever its thread is. -/
def PhaseOk (s : State) (t : TxnId) : Phase → Prop
  | .waiting | .setting _ | .left => Settled s t
  | .parsed _ | .running => ¬ Terminal (s.state t) ∧ s.ends t = 0
  | .ops region ops => Stage s t ops ∧ (s.txnMode t = false → region = .autoCommit)
  | .replying => Settled s t ∧ (s.txnMode t = false → ¬ Terminal (s.state t))

theorem unlock_state (lm : LockManager) (t : TxnId) (item : LockDataId) :
    (lm.unlock t item).1.state t = lm.state t ∨ ¬ Terminal (lm.state t) ∧ ¬ Terminal ((lm.unlock t item).1.state t) := by
  unfold LockManager.unlock
  split
  · exact .inl rfl
  · split
    · simp only [Function.update_self]
      by_cases hgrow : lm.state t = .growing
      · rw [if_pos hgrow, hgrow]
        exact .inr ⟨by decide, by decide⟩
      · rw [if_neg hgrow]
        exact .inl rfl
    · exact .inl rfl

/-- The release of a lock does not end a transaction, nor begin it again. -/
theorem terminal_releases {op : Op} (h : op = .undo ∨ op.releases) :
    (Terminal ((op.exec t s).state t) ↔ Terminal (s.state t)) ∧ (op.exec t s).ends t = s.ends t := by
  rcases h with rfl | rfl | ⟨item, rfl⟩
  · exact ⟨Iff.rfl, rfl⟩
  · exact ⟨Iff.rfl, rfl⟩
  · refine ⟨?_, rfl⟩
    rcases unlock_state s.lockManager t item with heq | ⟨hnot, hnot'⟩
    · exact iff_of_eq (congrArg Terminal heq)
    · exact iff_of_false hnot' hnot

theorem ends_log (type : LogType) (htype : type.terminal = true) : ((Op.log type).exec t s).ends t = s.ends t + 1 := by
  rw [Op.exec, ends_append, if_pos ⟨rfl, htype⟩]

/-- What is left to do after one of several steps. -/
theorem After.of_append {P : Op → Prop} (hunlock : ∀ item, P (.unlock item)) {locks : Finset LockDataId} {op : Op}
    {pre rest rest' : List Op} (h : op.After locks (pre ++ rest) rest') (hpre : ∀ op ∈ pre, P op) :
    ∃ pre', rest' = pre' ++ rest ∧ ∀ op ∈ pre', P op := by
  cases h with
  | @collect items =>
    refine ⟨items.map .unlock ++ pre, (List.append_assoc ..).symm, ?_⟩
    intro op hmem
    rcases List.mem_append.mp hmem with hmem | hmem
    · obtain ⟨item, -, rfl⟩ := List.mem_map.mp hmem
      exact hunlock item
    · exact hpre op hmem
  | next => exact ⟨pre, rfl, hpre⟩

theorem After.eq {locks : Finset LockDataId} {op : Op} {rest rest' : List Op} (h : op.After locks rest rest')
    (hop : op ≠ .collect) : rest' = rest := by
  cases h with
  | collect => exact absurd rfl hop
  | next => rfl

theorem releases_unlock (item : LockDataId) : (Op.unlock item).releases := .inr ⟨item, rfl⟩

/-- **A step of a commit or a rollback.** -/
theorem Stage.step {op : Op} {rest rest' : List Op} {locks : Finset LockDataId} (h : Stage s t (op :: rest))
    (hafter : op.After locks rest rest') : Stage (op.exec t s) t rest' := by
  generalize hops : op :: rest = ops at h
  cases h with
  | start hstart hstate hends =>
    rcases hstart with rfl | rfl
    · obtain ⟨rfl, rfl⟩ := List.cons.inj hops
      rw [After.eq hafter (by decide)]
      refine @Stage.committing _ t [.collect] (by simp [Op.releases]) hstate ?_
      rw [ends_log _ rfl, hends]
    · obtain ⟨rfl, rfl⟩ := List.cons.inj hops
      rw [After.eq hafter (by decide)]
      refine @Stage.aborting _ t [.undo, .collect] (by simp [Op.releases]) ?_ hends
      exact .inr (Function.update_self ..)
  | @committing pre hpre hstate hends =>
    cases pre with
    | nil =>
      obtain ⟨rfl, rfl⟩ := List.cons.inj hops
      rw [After.eq hafter (by decide)]
      exact .finished (.inl (Function.update_self ..)) hends
    | cons op' pre =>
      obtain ⟨rfl, rfl⟩ := List.cons.inj hops
      obtain ⟨pre', rfl, hpre'⟩ := After.of_append releases_unlock hafter fun o ho => hpre o (List.mem_cons_of_mem _ ho)
      obtain ⟨hterm, hsame⟩ := terminal_releases (s := s) (t := t) (.inr (hpre op List.mem_cons_self))
      exact .committing hpre' (hterm.not.mpr hstate) (hsame.trans hends)
  | @aborting pre hpre hstate hends =>
    cases pre with
    | nil =>
      obtain ⟨rfl, rfl⟩ := List.cons.inj hops
      rw [After.eq hafter (by decide)]
      exact .finished hstate (by rw [ends_log _ rfl, hends])
    | cons op' pre =>
      obtain ⟨rfl, rfl⟩ := List.cons.inj hops
      obtain ⟨pre', rfl, hpre'⟩ := After.of_append (fun item => .inr (releases_unlock item)) hafter
        fun o ho => hpre o (List.mem_cons_of_mem _ ho)
      obtain ⟨hterm, hsame⟩ := terminal_releases (s := s) (t := t) (hpre op List.mem_cons_self)
      exact .aborting hpre' (hterm.mpr hstate) (hsame.trans hends)
  | finished => cases hops

/-- What holds after a step of a commit or a rollback has thrown. -/
theorem Stage.throws {op : Op} {rest : List Op} {appended : Bool} (h : Stage s t (op :: rest))
    (hop : op = .undo ∧ appended = false ∨ ∃ type, op = .log type) (horder : op = .log .commit → appended = false) :
    Settled (if appended then op.exec t s else s) t := by
  have hreleases : ¬ op.releases := by
    rintro (rfl | ⟨item, rfl⟩) <;> rcases hop with ⟨heq, -⟩ | ⟨type, heq⟩ <;> cases heq
  have hset : ∀ state, op ≠ .setState state := by
    rintro state rfl
    rcases hop with ⟨heq, -⟩ | ⟨type, heq⟩ <;> cases heq
  generalize hops : op :: rest = ops at h
  cases h with
  | start hstart hstate hends =>
    rcases hstart with rfl | rfl
    · obtain ⟨rfl, rfl⟩ := List.cons.inj hops
      rw [horder rfl, if_neg Bool.false_ne_true]
      exact .inl ⟨hstate, hends⟩
    · exact absurd (List.cons.inj hops).1 (hset _)
  | @committing pre hpre hstate hends =>
    cases pre with
    | nil => exact absurd (List.cons.inj hops).1 (hset _)
    | cons op' pre =>
      obtain ⟨rfl, -⟩ := List.cons.inj hops
      exact absurd (hpre op List.mem_cons_self) hreleases
  | @aborting pre hpre hstate hends =>
    cases pre with
    | nil =>
      obtain ⟨rfl, rfl⟩ := List.cons.inj hops
      cases appended with
      | false =>
        rw [if_neg Bool.false_ne_true]
        exact .inr ⟨hstate, by rw [hends]; exact Nat.zero_le _⟩
      | true =>
        rw [if_pos rfl]
        exact .inr ⟨hstate, by rw [ends_log _ rfl, hends]⟩
    | cons op' pre =>
      obtain ⟨rfl, -⟩ := List.cons.inj hops
      obtain rfl := (hpre op List.mem_cons_self).resolve_right hreleases
      rcases hop with ⟨-, rfl⟩ | ⟨type, heq⟩
      · rw [if_neg Bool.false_ne_true]
        exact .inr ⟨hstate, by rw [hends]; exact Nat.zero_le _⟩
      · cases heq
  | finished => cases hops

/-- A step of a commit or a rollback leaves the state alone when the transaction has ended. -/
theorem Stage.state_eq {op : Op} {rest : List Op} (h : Stage s t (op :: rest)) (hterm : Terminal (s.state t)) :
    (op.exec t s).state t = s.state t := by
  cases op with
  | log | undo | collect => rfl
  | unlock item =>
    rcases unlock_state s.lockManager t item with heq | ⟨hnot, -⟩
    · exact heq
    · exact absurd hterm hnot
  | setState state =>
    generalize hops : Op.setState state :: rest = ops at h
    cases h with
    | start _ hstate => exact absurd hterm hstate
    | committing _ hstate => exact absurd hterm hstate
    | @aborting pre hpre =>
      cases pre with
      | nil => cases hops
      | cons op' pre =>
        obtain ⟨rfl, -⟩ := List.cons.inj hops
        rcases hpre _ List.mem_cons_self with heq | heq | ⟨item, heq⟩ <;> cases heq
    | finished => cases hops

/-- A commit or a rollback that has nothing left to do. -/
theorem Stage.of_nil (h : Stage s t []) : Terminal (s.state t) ∧ s.ends t = 1 := by
  generalize hops : ([] : List Op) = ops at h
  cases h with
  | start hstart => rcases hstart with rfl | rfl <;> cases hops
  | committing | aborting => exact absurd hops.symm (List.append_ne_nil_of_right_ne_nil _ (List.cons_ne_nil _ _))
  | finished hterm hends => exact ⟨hterm, hends⟩

theorem Stage.of_same {ops : List Op} (h : Stage s t ops) (hsame : SameTxn s s' t) : Stage s' t ops := by
  cases h with
  | start hstart hstate hends => exact .start hstart (hsame.state ▸ hstate) (hsame.ends.trans hends)
  | committing hpre hstate hends => exact .committing hpre (hsame.state ▸ hstate) (hsame.ends.trans hends)
  | aborting hpre hstate hends => exact .aborting hpre (hsame.state ▸ hstate) (hsame.ends.trans hends)
  | finished hstate hends => exact .finished (hsame.state ▸ hstate) (hsame.ends.trans hends)

theorem PhaseOk.of_same {phase : Phase} (h : PhaseOk s t phase) (hsame : SameTxn s s' t) : PhaseOk s' t phase := by
  cases phase with
  | ops region ops => exact ⟨h.1.of_same hsame, hsame.txnMode ▸ h.2⟩
  | waiting | setting | left | parsed | running | replying =>
    simp only [PhaseOk, Settled, hsame.state, hsame.ends, hsame.txnMode] at h ⊢
    exact h

/-- The thread of the session goes to another place. -/
theorem PhaseOk.at_goto {phase : Phase} (h : PhaseOk s t phase) : PhaseOk (s.goto c phase) t ((s.goto c phase).phase c) := by
  have hphase : (s.goto c phase).phase c = phase := Function.update_self ..
  rw [hphase]
  exact h.of_same ((SameTxn.refl s t).goto phase)

/-- The transaction that `SetTransaction` begins. -/
theorem Owned.begun (h : Owned s) (c : ClientId) :
    ¬ Terminal ((s.beginTxn c).state s.nextTxnId) ∧ (s.beginTxn c).ends s.nextTxnId = 0 := by
  have hstate : (s.beginTxn c).state s.nextTxnId = .growing := Function.update_self ..
  have hends : (s.beginTxn c).ends s.nextTxnId = s.ends s.nextTxnId := by
    refine (ends_append s s.nextTxnId s.nextTxnId .begin).trans ?_
    rw [if_neg fun hbegin => Bool.false_ne_true hbegin.2, Nat.add_zero]
  rw [hstate, hends]
  exact ⟨by decide, (h.unborn _ h.fresh).2.1⟩

/-- A lock request does not end a transaction. -/
theorem request_same {item : LockDataId} {mode : LockMode} {lm : LockManager} {out : Option AbortReason}
    (h : s.lockManager.request t item mode = (lm, out)) (t' : TxnId) :
    (s.setLockManager lm).state t' = s.state t' ∧ (s.setLockManager lm).ends t' = s.ends t' :=
  ⟨congrFun (LockManager.request_cases h).1 t', rfl⟩

/-! ### A step of a session, place by place -/

/-- A statement is started. -/
theorem PhaseOk.executed {stmt : Stmt} (h : PhaseOk s t (.parsed stmt))
    (hexplicit : stmt = .commit ∨ stmt = .abort → s.txnMode t = true) :
    PhaseOk { s with txnMode := if stmt = Stmt.begin then update s.txnMode t true else s.txnMode } t stmt.next := by
  cases stmt with
  | nothing | begin => exact ⟨.inl h, fun _ => h.1⟩
  | commit => exact ⟨.start (.inl rfl) h.1 h.2, fun himplicit => by cases himplicit.symm.trans (hexplicit (.inl rfl))⟩
  | abort => exact ⟨.start (.inr rfl) h.1 h.2, fun himplicit => by cases himplicit.symm.trans (hexplicit (.inr rfl))⟩
  | other => exact h

/-- A lock is granted, or refused. -/
theorem PhaseOk.requested {item : LockDataId} {mode : LockMode} {lm : LockManager} {out : Option AbortReason}
    (h : PhaseOk s t .running) (hreq : s.lockManager.request t item mode = (lm, out)) :
    PhaseOk (s.setLockManager lm) t .running := by
  obtain ⟨hstate, hends⟩ := request_same hreq t
  refine ⟨?_, hends.trans h.2⟩
  rw [hstate]
  exact h.1

/-- The handler rolls an explicit transaction back. -/
theorem PhaseOk.handled (h : PhaseOk s t .running) (hexplicit : s.txnMode t = true) :
    PhaseOk s t (.ops .handler abortOps) := by
  refine ⟨.start (.inr rfl) h.1 h.2, ?_⟩
  intro himplicit
  cases himplicit.symm.trans hexplicit

/-- A change is logged. -/
theorem PhaseOk.changed (h : PhaseOk s t .running) (t' : TxnId) : PhaseOk (s.append t' .change) t .running := by
  refine ⟨h.1, ?_⟩
  rw [ends_append, if_neg fun hchange => by cases hchange.2]
  exact h.2

theorem PhaseOk.operated {region : Region} {op : Op} {rest rest' : List Op} {locks : Finset LockDataId}
    (h : PhaseOk s t (.ops region (op :: rest))) (hafter : op.After locks rest rest') :
    PhaseOk (op.exec t s) t (.ops region rest') := by
  refine ⟨h.1.step hafter, fun himplicit => h.2 ?_⟩
  exact (congrFun (exec_txnMode op t s) t).symm.trans himplicit

/-- A commit or a rollback throws: it was a statement's, of an explicit transaction. -/
theorem PhaseOk.thrown {op : Op} {rest : List Op} {appended : Bool} (h : PhaseOk s t (.ops .statement (op :: rest)))
    (hop : op = .undo ∧ appended = false ∨ ∃ type, op = .log type) (horder : op = .log .commit → appended = false) :
    PhaseOk (if appended then op.exec t s else s) t .replying := by
  have hmode : (if appended then op.exec t s else s).txnMode = s.txnMode := by
    split
    · exact exec_txnMode ..
    · rfl
  refine ⟨h.1.throws hop horder, ?_⟩
  intro himplicit
  cases h.2 ((congrFun hmode t).symm.trans himplicit)

/-- A commit or a rollback has ended. -/
theorem PhaseOk.ended {region : Region} (h : PhaseOk s t (.ops region [])) : PhaseOk s t region.next := by
  obtain ⟨hterm, hends⟩ := h.1.of_nil
  have hsettled : Settled s t := .inr ⟨hterm, Nat.le_of_eq hends⟩
  cases region with
  | statement | handler => exact ⟨hsettled, fun himplicit => by cases h.2 himplicit⟩
  | autoCommit => exact hsettled

/-- The answer is written, and an implicit transaction is committed. -/
theorem PhaseOk.replied (h : PhaseOk s t .replying) :
    PhaseOk s t (if s.txnMode t then .waiting else .ops .autoCommit commitOps) := by
  by_cases hmode : s.txnMode t = true
  · rw [if_pos hmode]
    exact h.1
  · rw [if_neg hmode]
    have hnot := h.2 (Bool.eq_false_of_not_eq_true hmode)
    exact ⟨.start (.inl rfl) hnot (h.1.resolve_right fun hend => hnot hend.1).2, fun _ => rfl⟩

/-- **A step of a session** keeps what holds of its transaction. -/
theorem PhaseOk.step (hstep : Step s (c, e) s') (horder : Orderly s c e) (h : ∀ t, s.txnId c = some t → PhaseOk s t (s.phase c))
    (howned : Owned s) : ∀ t, s'.txnId c = some t → PhaseOk s' t (s'.phase c) := by
  intro t ht
  have hold : ∀ {t phase}, s.txnId c = some t → s.phase c = phase → PhaseOk s t phase := by
    rintro t _ ht rfl
    exact h t ht
  cases hstep with
  | request hphase | leave hphase =>
    have hsettled := hold ht hphase
    exact PhaseOk.at_goto hsettled
  | keepTxn hphase htxn hnot =>
    obtain rfl := Option.some.inj (htxn.symm.trans ht)
    exact PhaseOk.at_goto ((hold ht hphase).resolve_right fun hend => hnot hend.1)
  | beginTxn hphase hterm =>
    have hnew : (s.beginTxn c).txnId c = some s.nextTxnId := Function.update_self ..
    obtain rfl : s.nextTxnId = t := Option.some.inj (hnew.symm.trans ht)
    exact PhaseOk.at_goto (howned.begun c)
  | execute hphase htxn =>
    obtain rfl := Option.some.inj (htxn.symm.trans ht)
    exact PhaseOk.at_goto ((hold htxn hphase).executed fun hstmt => horder hstmt _ htxn)
  | grant hphase htxn hreq =>
    obtain rfl : t = _ := Option.some.inj (ht.symm.trans htxn)
    have hnext := (hold ht hphase).requested hreq
    rw [← hphase] at hnext
    exact hnext
  | refuse hphase htxn hreq =>
    obtain rfl : t = _ := Option.some.inj (ht.symm.trans htxn)
    exact PhaseOk.at_goto (((hold ht hphase).requested hreq).handled (horder t ht))
  | change hphase htxn =>
    have hnext := (hold ht hphase).changed
    rw [← hphase] at hnext
    exact hnext _
  | finish hphase =>
    have hrunning := hold ht hphase
    exact PhaseOk.at_goto ⟨.inl hrunning, fun _ => hrunning.1⟩
  | @op _ t' region op rest rest' hphase htxn hafter =>
    have htxn' : s.txnId c = some t := (congrFun (exec_txnId op t' s) c).symm.trans ht
    obtain rfl := Option.some.inj (htxn.symm.trans htxn')
    exact PhaseOk.at_goto ((hold htxn hphase).operated hafter)
  | @throws _ t' op rest appended hphase htxn hop =>
    have hsame : (if appended then op.exec t' s else s).txnId = s.txnId := by
      split
      · exact exec_txnId ..
      · rfl
    have htxn' : s.txnId c = some t := (congrFun hsame c).symm.trans ht
    obtain rfl := Option.some.inj (htxn.symm.trans htxn')
    exact PhaseOk.at_goto ((hold htxn hphase).thrown hop horder)
  | done hphase => exact PhaseOk.at_goto (hold ht hphase).ended
  | reply hphase htxn =>
    obtain rfl := Option.some.inj (htxn.symm.trans ht)
    exact PhaseOk.at_goto (hold htxn hphase).replied
  | replyFails hphase => exact PhaseOk.at_goto (hold ht hphase).1

/-! ### All transactions of a session -/

/-- What holds of the transactions of a session. -/
structure SessionOk (s : State) (c : ClientId) : Prop where
  current : ∀ t, s.txnId c = some t → PhaseOk s t (s.phase c)
  old : ∀ t, s.startedBy t = some c → s.txnId c ≠ some t → Terminal (s.state t) ∧ s.ends t ≤ 1

/-- One record at most, wherever the thread is. -/
theorem PhaseOk.ends_le {phase : Phase} (h : PhaseOk s t phase) : s.ends t ≤ 1 := by
  have hsettled : Settled s t → s.ends t ≤ 1 := by
    rintro (⟨-, hends⟩ | ⟨-, hends⟩)
    · rw [hends]
      exact Nat.zero_le _
    · exact hends
  cases phase with
  | waiting | setting | left => exact hsettled h
  | replying => exact hsettled h.1
  | parsed | running => exact hsettled (.inl h)
  | ops =>
    obtain ⟨hstage, -⟩ := h
    cases hstage with
    | start _ _ hends => exact (Nat.le_of_eq hends).trans (Nat.zero_le _)
    | aborting _ _ hends => exact (Nat.le_of_eq hends).trans (Nat.zero_le _)
    | committing _ _ hends => exact Nat.le_of_eq hends
    | finished _ hends => exact Nat.le_of_eq hends

theorem SessionOk.ends_le (h : SessionOk s c) (hstarted : s.startedBy t = some c) : s.ends t ≤ 1 := by
  by_cases hcur : s.txnId c = some t
  · exact (h.current t hcur).ends_le
  · exact (h.old t hstarted hcur).2

/-- The transaction that is replaced by another one has ended. -/
theorem SessionOk.replaced (h : SessionOk s c) (hstep : Step s (c, e) s') (hcur : s.txnId c = some t)
    (hnew : s'.txnId c ≠ some t) : Terminal (s.state t) ∧ s.ends t ≤ 1 := by
  obtain ⟨stmt, hphase, hterm, -⟩ := hstep.replaces hcur hnew
  have hsettled := h.current t hcur
  rw [hphase] at hsettled
  exact hsettled.resolve_left fun hnot => hnot.1 hterm

theorem SessionOk.step {c' : ClientId} (h : SessionOk s c) (howned : Owned s) (hstep : Step s (c', e) s')
    (horder : c' = c → Orderly s c e) : SessionOk s' c := by
  by_cases hc : c = c'
  · subst hc
    refine ⟨PhaseOk.step hstep (horder rfl) h.current howned, ?_⟩
    intro t hstarted hne
    rcases Owned.started_cases hstep hstarted with hstarted | ⟨-, -, hcur⟩
    · have hsame := howned.sameTxn_of_old hstep hstarted hne
      rw [hsame.state, hsame.ends]
      by_cases hcur : s.txnId c = some t
      · exact h.replaced hstep hcur hne
      · exact h.old t hstarted hcur
    · exact absurd hcur hne
  · obtain ⟨hphase, htxn⟩ := hstep.others hc
    constructor
    · intro t hcur
      rw [htxn] at hcur
      rw [hphase]
      exact (h.current t hcur).of_same (howned.sameTxn_of_ne hstep hc (howned.owner c t hcur))
    · intro t hstarted hne
      rcases Owned.started_cases hstep hstarted with hstarted | ⟨-, heq, -⟩
      · have hsame := howned.sameTxn_of_ne hstep hc hstarted
        rw [hsame.state, hsame.ends]
        exact h.old t hstarted (htxn ▸ hne)
      · exact absurd heq hc

/-- A step of the session of a transaction does not change its state when it has ended. -/
theorem PhaseOk.state_eq (h : PhaseOk s t (s.phase c)) (hstep : Step s (c, e) s') (hcur : s.txnId c = some t)
    (hnew : t ≠ s.nextTxnId) (hterm : Terminal (s.state t)) : s'.state t = s.state t := by
  cases hstep with
  | beginTxn => exact (sameTxn_beginTxn (c := c) hnew).state
  | grant _ _ hreq => exact (request_same hreq t).1
  | refuse _ _ hreq => exact (request_same hreq t).1
  | op hphase htxn =>
    obtain rfl := Option.some.inj (htxn.symm.trans hcur)
    rw [hphase] at h
    exact h.1.state_eq hterm
  | throws hphase htxn =>
    obtain rfl := Option.some.inj (htxn.symm.trans hcur)
    rw [hphase] at h
    refine Eq.trans (b := (ite _ _ s).state _) rfl ?_
    split
    · exact h.1.state_eq hterm
    · rfl
  | _ => rfl

/-- **A step of any session** leaves the state of a transaction that has ended as it is. -/
theorem SessionOk.state_eq {c' : ClientId} (h : SessionOk s c) (howned : Owned s) (hstep : Step s (c', e) s')
    (hstarted : s.startedBy t = some c) (hterm : Terminal (s.state t)) : s'.state t = s.state t := by
  by_cases hc : c = c'
  · subst hc
    by_cases hcur : s.txnId c = some t
    · exact (h.current t hcur).state_eq hstep hcur (Nat.ne_of_lt (howned.known c t hstarted)) hterm
    · exact (hstep.sameTxn hcur fun _ => Nat.ne_of_lt (howned.known c t hstarted)).state
  · exact (howned.sameTxn_of_ne hstep hc hstarted).state

/-- What holds of a run in which the steps of the session are orderly. -/
theorem SessionOk.run {tr : List (State × (ClientId × Event))} (htr : Trace Step initial tr s)
    (horder : ∀ x ∈ tr, x.2.1 = c → Orderly x.1 c x.2.2) :
    SessionOk s c ∧ ∀ t, ∀ x ∈ tr, x.1.startedBy t = some c → s.startedBy t = some c ∧
      (Terminal (x.1.state t) → s.state t = x.1.state t) := by
  induction htr with
  | nil =>
    refine ⟨⟨?_, ?_⟩, ?_⟩
    · intro t ht
      cases ht
    · intro t ht
      cases ht
    · intro t x hx
      cases hx
  | @snoc tr a e b htr hstep ih =>
    obtain ⟨c', e⟩ := e
    obtain ⟨hok, hstable⟩ := ih fun x hx => horder x (List.mem_append_left _ hx)
    have howned := Owned.run htr
    refine ⟨hok.step howned hstep ?_, ?_⟩
    · intro hc
      exact horder (a, (c', e)) (List.mem_append_right _ List.mem_cons_self) hc
    · intro t x hx hstarted
      rcases List.mem_append.mp hx with hx | hx
      · obtain ⟨hstarted', hstate⟩ := hstable t x hx hstarted
        refine ⟨howned.started hstep hstarted', ?_⟩
        intro hterm
        rw [hok.state_eq howned hstep hstarted' (by rw [hstate hterm]; exact hterm), hstate hterm]
      · obtain rfl := List.mem_singleton.mp hx
        exact ⟨howned.started hstep hstarted, hok.state_eq howned hstep hstarted⟩

/-- **A transaction ends once**: if the steps of a session are orderly, each of its transactions has one `COMMIT` or `ABORT`
record at most, and it stays in the state that it has ended in. -/
theorem terminal_once {tr : List (State × (ClientId × Event))} (htr : Trace Step initial tr s)
    (horder : ∀ x ∈ tr, x.2.1 = c → Orderly x.1 c x.2.2) (hstarted : s.startedBy t = some c) :
    s.ends t ≤ 1 ∧ ∀ x ∈ tr, Terminal (x.1.state t) → s.state t = x.1.state t := by
  obtain ⟨hok, hstable⟩ := SessionOk.run htr horder
  refine ⟨hok.ends_le hstarted, ?_⟩
  intro x hx hterm
  obtain ⟨tr₁, tr₂, b, h₁, h₂, h₃⟩ := htr.split hx
  have howned := Owned.run h₁
  rcases hbegun : x.1.startedBy t with _ | c'
  · rw [(howned.unborn t hbegun).1] at hterm
    exact absurd hterm (by decide)
  · have hlast := (howned.step h₂).started_run h₃ (howned.started h₂ hbegun)
    obtain rfl : c' = c := Option.some.inj (hlast.symm.trans hstarted)
    exact (hstable t x hx hbegun).2 hterm

/-- Without locks there is nothing between the copy of the lock set and the rest. -/
theorem After.collect_empty {locks : Finset LockDataId} (hlocks : locks = ∅) (rest : List Op) :
    Op.After locks .collect rest rest :=
  @Op.After.collect locks [] rest fun item => by simp [hlocks]

/-- `BEGIN` and `COMMIT`, up to the end of the commit. -/
theorem terminal_once_commit : ∃ tr s, Trace Step initial tr s ∧ s.state 0 = .committed ∧
    s.ends 0 ≤ 1 ∧ ∀ x ∈ tr, Terminal (x.1.state 0) → s.state 0 = x.1.state 0 := by
  have h₁ := (@Trace.nil _ _ Step initial).snoc (@Step.request _ 0 .begin rfl)
  have h₂ := h₁.snoc (.beginTxn (c := 0) rfl fun t ht => by cases ht)
  have h₃ := h₂.snoc (.execute (c := 0) rfl rfl)
  have h₄ := h₃.snoc (.reply (c := 0) rfl rfl)
  have h₅ := h₄.snoc (@Step.request _ 0 .commit rfl)
  have h₆ := h₅.snoc (.keepTxn (c := 0) rfl rfl (by decide))
  have h₇ := h₆.snoc (.execute (c := 0) rfl rfl)
  have h₈ := h₇.snoc (.op (c := 0) rfl rfl (.next (by decide)))
  have h₉ := h₈.snoc (.op (c := 0) rfl rfl (After.collect_empty rfl _))
  have hrun := h₉.snoc (.op (c := 0) rfl rfl (.next (by decide)))
  refine ⟨_, _, hrun, rfl, terminal_once (c := 0) hrun ?_ rfl⟩
  intro x hx _
  simp only [List.nil_append, List.mem_append, List.mem_singleton] at hx
  rcases hx with (((((((((rfl | rfl) | rfl) | rfl) | rfl) | rfl) | rfl) | rfl) | rfl) | rfl)
  -- The two statements: `BEGIN` asks for nothing, and `COMMIT` is in the explicit transaction.
  all_goals first
    | exact trivial
    | exact fun hstmt => absurd hstmt (by decide)
    | exact fun _ t ht => by cases ht; rfl

/-- `COMMIT` without `BEGIN`: the commit at the end of the request writes a second record. -/
theorem not_terminal_once : ¬ ∀ tr s, Trace Step initial tr s → ∀ t,
    s.ends t ≤ 1 ∧ ∀ x ∈ tr, Terminal (x.1.state t) → s.state t = x.1.state t := by
  intro hall
  have h₁ := (@Trace.nil _ _ Step initial).snoc (@Step.request _ 0 .commit rfl)
  have h₂ := h₁.snoc (.beginTxn (c := 0) rfl fun t ht => by cases ht)
  have h₃ := h₂.snoc (.execute (c := 0) rfl rfl)
  have h₄ := h₃.snoc (.op (c := 0) rfl rfl (.next (by decide)))
  have h₅ := h₄.snoc (.op (c := 0) rfl rfl (After.collect_empty rfl _))
  have h₆ := h₅.snoc (.op (c := 0) rfl rfl (.next (by decide)))
  have h₇ := h₆.snoc (.done (c := 0) rfl)
  have h₈ := h₇.snoc (.reply (c := 0) rfl rfl)
  have hrun := h₈.snoc (.op (c := 0) rfl rfl (.next (by decide)))
  exact absurd (hall _ _ hrun 0).1 (by decide)

end Rmdb.Server
