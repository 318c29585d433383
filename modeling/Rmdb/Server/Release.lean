import Rmdb.Server.Terminal

/-!
# The locks of a session that has ended

`client_handler` leaves its loop without a look at the transaction. The locks of a session that has
ended are all released if it does not leave while a transaction that holds locks is still to be
ended, and if no rollback of an explicit transaction that holds locks throws; in any other run some
of them stay in the lock table for good (`released_iff`).
-/

namespace Rmdb.Server

open Lib Transaction
open Function (update)

variable {s s' : State} {c : ClientId} {t : TxnId} {e : Event}

/-- The transaction has no lock. -/
def State.Free (s : State) (t : TxnId) : Prop := s.lockManager.lockSet t = ∅

/-- The transaction is still to be ended, by the client or by the commit at the end of the request. -/
def State.Pending (s : State) (t : TxnId) : Prop := ¬ Terminal (s.state t) ∨ s.txnMode t = false

/-- **The condition on a step**: the loop is not left while a transaction that has locks is still to be ended, and no
rollback of an explicit transaction that has locks throws. -/
def Clean (s : State) (c : ClientId) : Event → Prop
  | .leave | .replyFails => ∀ t, s.txnId c = some t → s.Pending t → s.Free t
  | .throws .undo _ => ∀ t, s.txnId c = some t → s.txnMode t = true → s.Free t
  | _ => True

/-! ### One session -/

/-- The steps of a commit or a rollback up to the copy of the lock set. -/
inductive Collecting : List Op → Prop where
  /-- A commit. -/
  | commit : Collecting commitOps
  /-- A rollback. -/
  | abort : Collecting abortOps
  /-- A rollback, after `set_state`. -/
  | undo : Collecting [.undo, .collect, .log .abort]
  /-- The copy is next. -/
  | collect {rest : List Op} : Collecting (.collect :: rest)

/-- A commit or a rollback on its way to release the locks: they are still to be copied, or the ones that are left have an
`unlock` each. -/
def Releasing (s : State) (t : TxnId) (region : Region) (ops : List Op) : Prop :=
  Collecting ops ∧ (region = .statement → ops = commitOps → ¬ Terminal (s.state t)) ∨
    ∃ (items : List LockDataId) (rest : List Op), ops = items.map .unlock ++ rest ∧ ∀ item ∈ s.lockManager.lockSet t, item ∈ items

/-- What holds of the locks of a transaction of a session, wherever its thread is. -/
def PhaseFree (s : State) (t : TxnId) : Phase → Prop
  | .waiting | .setting _ => s.txnMode t = false ∨ Terminal (s.state t) → s.Free t
  | .parsed _ | .running => ¬ Terminal (s.state t)
  | .ops region ops => Releasing s t region ops
  | .replying => Terminal (s.state t) → s.txnMode t = true → s.Free t
  | .left => s.Free t

theorem PhaseFree.of_same {phase : Phase} (h : PhaseFree s t phase) (hsame : SameTxn s s' t) : PhaseFree s' t phase := by
  cases phase with
  | ops => simpa only [PhaseFree, Releasing, hsame.state, hsame.lockSet] using h
  | waiting | setting | left | parsed | running | replying =>
    simpa only [PhaseFree, State.Free, hsame.state, hsame.lockSet, hsame.txnMode] using h

theorem PhaseFree.at_goto {phase : Phase} (h : PhaseFree s t phase) :
    PhaseFree (s.goto c phase) t ((s.goto c phase).phase c) := by
  have hphase : (s.goto c phase).phase c = phase := Function.update_self ..
  rw [hphase]
  exact h.of_same ((SameTxn.refl s t).goto phase)

/-- `unlock` finds every lock that is in the lock set. -/
theorem unlock_of_mem (hok : s.lockManager.Ok) {item : LockDataId} (hmem : item ∈ s.lockManager.lockSet t) :
    (s.lockManager.unlock t item).2 = true := by
  obtain ⟨r, hr, hrt⟩ := (hok.mirrors t item).mp hmem
  rw [LockManager.unlock]
  rcases hq : s.lockManager.lockTable item with _ | q
  · rw [LockManager.requests, hq] at hr
    cases hr
  · rw [LockManager.requests, hq] at hr
    have hany : (q.requestQueue.any fun r => r.txnId = t) = true :=
      List.any_eq_true.mpr ⟨r, hr, decide_eq_true hrt⟩
    simp only [hany, if_true]

/-- A lock that is released is in the lock set no more. -/
theorem lockSet_unlock (hok : s.lockManager.Ok) (item : LockDataId) :
    ((Op.unlock item).exec t s).lockManager.lockSet t = (s.lockManager.lockSet t).erase item := by
  rcases hun : s.lockManager.unlock t item with ⟨lm, b⟩
  have hexec : ((Op.unlock item).exec t s).lockManager = lm := congrArg Prod.fst hun
  rw [hexec]
  rcases LockManager.unlock_cases hun with ⟨rfl, rfl⟩ | ⟨-, -, -, -, hlocks, -⟩
  · refine (Finset.erase_eq_of_notMem ?_).symm
    intro hmem
    have hfound := unlock_of_mem hok hmem
    rw [hun] at hfound
    cases hfound
  · rw [hlocks, Function.update_self]

/-- A step of a commit or a rollback takes no lock. -/
theorem lockSet_exec (hok : s.lockManager.Ok) (op : Op) :
    (op.exec t s).lockManager.lockSet t ⊆ s.lockManager.lockSet t := by
  cases op with
  | unlock item =>
    rw [lockSet_unlock hok]
    exact Finset.erase_subset _ _
  | log | undo | collect | setState => exact Finset.Subset.refl _

theorem Free.exec (h : s.Free t) (hok : s.lockManager.Ok) (op : Op) : (op.exec t s).Free t :=
  Finset.subset_empty.mp ((lockSet_exec hok op).trans (Finset.subset_of_eq h))

/-- **A step of a commit or a rollback** brings the release of the locks nearer. -/
theorem Releasing.step {region : Region} {op : Op} {rest rest' : List Op} (h : Releasing s t region (op :: rest))
    (hok : s.lockManager.Ok) (hafter : op.After (s.lockManager.lockSet t) rest rest') :
    Releasing (op.exec t s) t region rest' := by
  rcases h with ⟨hcollect, -⟩ | ⟨items, rest₀, hops, hitems⟩
  · generalize hops : op :: rest = ops at hcollect
    cases hcollect with
    | commit =>
      obtain ⟨rfl, rfl⟩ := List.cons.inj hops
      rw [After.eq hafter (by decide)]
      exact .inl ⟨.collect, fun _ heq => by cases heq⟩
    | abort =>
      obtain ⟨rfl, rfl⟩ := List.cons.inj hops
      rw [After.eq hafter (by decide)]
      exact .inl ⟨.undo, fun _ heq => by cases heq⟩
    | undo =>
      obtain ⟨rfl, rfl⟩ := List.cons.inj hops
      rw [After.eq hafter (by decide)]
      exact .inl ⟨.collect, fun _ heq => by cases heq⟩
    | collect =>
      obtain ⟨rfl, rfl⟩ := List.cons.inj hops
      cases hafter with
      | @collect items _ hmem => exact .inr ⟨items, rest, rfl, fun item hitem => (hmem item).mpr hitem⟩
      | next hne => exact absurd rfl hne
  · cases items with
    | nil =>
      have hfree : s.Free t := Finset.eq_empty_of_forall_notMem fun item hitem => List.not_mem_nil (hitems item hitem)
      refine .inr ⟨[], rest', rfl, ?_⟩
      intro item hitem
      rw [Free.exec hfree hok op] at hitem
      exact absurd hitem (Finset.notMem_empty item)
    | cons item items =>
      obtain ⟨rfl, rfl⟩ := List.cons.inj hops
      rw [After.eq hafter (by exact Op.noConfusion)]
      refine .inr ⟨items, rest₀, rfl, ?_⟩
      intro item' hitem'
      rw [lockSet_unlock hok] at hitem'
      obtain ⟨hne, hmem⟩ := Finset.mem_erase.mp hitem'
      exact (List.mem_cons.mp (hitems item' hmem)).resolve_left hne

/-- With nothing left to do there is no lock. -/
theorem Releasing.of_nil {region : Region} (h : Releasing s t region []) : s.Free t := by
  rcases h with ⟨hcollect, -⟩ | ⟨items, rest, hops, hitems⟩
  · generalize hops : ([] : List Op) = ops at hcollect
    cases hcollect <;> cases hops
  · obtain ⟨hnil, -⟩ := List.append_eq_nil_iff.mp hops.symm
    obtain rfl := List.map_eq_nil_iff.mp hnil
    exact Finset.eq_empty_of_forall_notMem fun item hitem => List.not_mem_nil (hitems item hitem)

/-- A commit or a rollback of a statement that throws: the transaction has not ended, or the rollback of its writes has
thrown, or it has no lock. -/
theorem Releasing.throws {op : Op} {rest : List Op} (h : Releasing s t .statement (op :: rest))
    (hop : op = .undo ∨ ∃ type, op = .log type) : ¬ Terminal (s.state t) ∨ op = .undo ∨ s.Free t := by
  rcases h with ⟨hcollect, hterm⟩ | ⟨items, rest₀, hops, hitems⟩
  · generalize hops : op :: rest = ops at hcollect hterm
    cases hcollect with
    | commit => exact .inl (hterm rfl rfl)
    | abort =>
      obtain ⟨rfl, -⟩ := List.cons.inj hops
      rcases hop with hop | ⟨type, hop⟩ <;> cases hop
    | undo => exact .inr (.inl (List.cons.inj hops).1)
    | collect =>
      obtain ⟨rfl, -⟩ := List.cons.inj hops
      rcases hop with hop | ⟨type, hop⟩ <;> cases hop
  · cases items with
    | nil =>
      exact .inr (.inr (Finset.eq_empty_of_forall_notMem fun item hitem => List.not_mem_nil (hitems item hitem)))
    | cons item items =>
      obtain ⟨rfl, -⟩ := List.cons.inj hops
      rcases hop with hop | ⟨type, hop⟩ <;> cases hop

/-- A step that throws changes the log at most. -/
structure ThrowSame (s s' : State) : Prop where
  lockManager : s'.lockManager = s.lockManager
  txnId : s'.txnId = s.txnId
  txnMode : s'.txnMode = s.txnMode

theorem ThrowSame.refl (s : State) : ThrowSame s s := ⟨rfl, rfl, rfl⟩

theorem ThrowSame.exec {op : Op} (hop : op = .undo ∨ ∃ type, op = .log type) (t : TxnId) : ThrowSame s (op.exec t s) := by
  rcases hop with rfl | ⟨type, rfl⟩
  · exact .refl s
  · exact ⟨rfl, rfl, rfl⟩

/-! ### A step of a session, place by place -/

/-- The loop is left between two requests. -/
theorem PhaseFree.leaves (h : PhaseFree s t .waiting) (hclean : s.Pending t → s.Free t) : s.Free t := by
  by_cases hpending : s.Pending t
  · exact hclean hpending
  · exact h (.inr (not_not.mp (not_or.mp hpending).1))

/-- The loop is left because `write` fails. -/
theorem PhaseFree.fails (h : PhaseFree s t .replying) (hclean : s.Pending t → s.Free t) : s.Free t := by
  by_cases hpending : s.Pending t
  · exact hclean hpending
  · obtain ⟨hterm, hmode⟩ := not_or.mp hpending
    exact h (not_not.mp hterm) (Bool.eq_true_of_not_eq_false hmode)

/-- A statement is started. -/
theorem PhaseFree.executed {stmt : Stmt} (h : PhaseFree s t (.parsed stmt)) (txnMode : TxnId → Bool) :
    PhaseFree { s with txnMode := txnMode } t stmt.next := by
  cases stmt with
  | nothing | begin => exact fun hterm => absurd hterm h
  | commit => exact .inl ⟨.commit, fun _ _ => h⟩
  | abort => exact .inl ⟨.abort, fun _ heq => by cases heq⟩
  | other => exact h

/-- A commit or a rollback of a statement throws. -/
theorem PhaseFree.thrown {op : Op} {rest : List Op} (h : PhaseFree s t (.ops .statement (op :: rest)))
    (hsame : ThrowSame s s') (hop : op = .undo ∨ ∃ type, op = .log type)
    (hclean : op = .undo → s.txnMode t = true → s.Free t) : PhaseFree s' t .replying := by
  intro hterm hmode
  rw [State.state, hsame.lockManager] at hterm
  rw [hsame.txnMode] at hmode
  rw [State.Free, hsame.lockManager]
  rcases h.throws hop with hnot | hundo | hfree
  · exact absurd hterm hnot
  · exact hclean hundo hmode
  · exact hfree

/-- A commit or a rollback has ended. -/
theorem PhaseFree.ended {region : Region} (h : PhaseFree s t (.ops region [])) : PhaseFree s t region.next := by
  have hfree : s.Free t := h.of_nil
  cases region with
  | statement | handler => exact fun _ _ => hfree
  | autoCommit => exact fun _ => hfree

/-- The answer is written, and an implicit transaction is committed. -/
theorem PhaseFree.replied (h : PhaseFree s t .replying) :
    PhaseFree s t (if s.txnMode t then .waiting else .ops .autoCommit commitOps) := by
  by_cases hmode : s.txnMode t = true
  · rw [if_pos hmode]
    rintro (himplicit | hterm)
    · cases himplicit.symm.trans hmode
    · exact h hterm hmode
  · rw [if_neg hmode]
    exact .inl ⟨.commit, fun heq => by cases heq⟩

/-- **A step of a session** keeps what holds of the locks of its transaction. -/
theorem PhaseFree.step (hstep : Step s (c, e) s') (hclean : Clean s c e)
    (h : ∀ t, s.txnId c = some t → PhaseFree s t (s.phase c)) (howned : Owned s) :
    ∀ t, s'.txnId c = some t → PhaseFree s' t (s'.phase c) := by
  intro t ht
  have hold : ∀ {t phase}, s.txnId c = some t → s.phase c = phase → PhaseFree s t phase := by
    rintro t _ ht rfl
    exact h t ht
  cases hstep with
  | request hphase =>
    have hwaiting := hold ht hphase
    exact PhaseFree.at_goto hwaiting
  | leave hphase => exact PhaseFree.at_goto ((hold ht hphase).leaves (hclean t ht))
  | keepTxn hphase htxn hnot =>
    obtain rfl := Option.some.inj (htxn.symm.trans ht)
    exact PhaseFree.at_goto hnot
  | beginTxn hphase hterm =>
    have hnew : (s.beginTxn c).txnId c = some s.nextTxnId := Function.update_self ..
    obtain rfl : s.nextTxnId = t := Option.some.inj (hnew.symm.trans ht)
    exact PhaseFree.at_goto (howned.begun c).1
  | execute hphase htxn => exact PhaseFree.at_goto ((hold ht hphase).executed _)
  | @grant _ _ _ _ lm hphase htxn hreq =>
    obtain rfl : t = _ := Option.some.inj (ht.symm.trans htxn)
    have hphase' : (s.setLockManager lm).phase c = .running := hphase
    rw [hphase', PhaseFree, (request_same hreq t).1]
    exact hold ht hphase
  | refuse hphase htxn hreq => exact PhaseFree.at_goto (.inl ⟨.abort, fun _ heq => by cases heq⟩)
  | @change _ t' hphase htxn =>
    have hphase' : (s.append t' .change).phase c = .running := hphase
    rw [hphase']
    exact hold ht hphase
  | finish hphase => exact PhaseFree.at_goto fun hterm => absurd hterm (hold ht hphase)
  | @op _ t' region op rest rest' hphase htxn hafter =>
    have htxn' : s.txnId c = some t := (congrFun (exec_txnId op t' s) c).symm.trans ht
    obtain rfl := Option.some.inj (htxn.symm.trans htxn')
    exact PhaseFree.at_goto ((hold htxn hphase).step howned.locks hafter)
  | @throws _ t' op rest appended hphase htxn hop =>
    have hop' : op = .undo ∨ ∃ type, op = .log type := hop.imp_left And.left
    have hsame : ThrowSame s (if appended then op.exec t' s else s) := by
      split
      · exact ThrowSame.exec hop' t'
      · exact .refl s
    have htxn' : s.txnId c = some t := (congrFun hsame.txnId c).symm.trans ht
    refine PhaseFree.at_goto ((hold htxn' hphase).thrown hsame hop' ?_)
    intro hundo hmode
    subst hundo
    exact hclean t htxn' hmode
  | done hphase => exact PhaseFree.at_goto (hold ht hphase).ended
  | reply hphase htxn =>
    obtain rfl := Option.some.inj (htxn.symm.trans ht)
    exact PhaseFree.at_goto (hold htxn hphase).replied
  | replyFails hphase => exact PhaseFree.at_goto ((hold ht hphase).fails (hclean t ht))

/-! ### All transactions of a session -/

/-- What holds of the locks of the transactions of a session. -/
structure LocksOk (s : State) (c : ClientId) : Prop where
  current : ∀ t, s.txnId c = some t → PhaseFree s t (s.phase c)
  old : ∀ t, s.startedBy t = some c → s.txnId c ≠ some t → s.Free t

/-- The transaction that is replaced by another one has no lock. -/
theorem LocksOk.replaced (h : LocksOk s c) (hstep : Step s (c, e) s') (hcur : s.txnId c = some t)
    (hnew : s'.txnId c ≠ some t) : s.Free t := by
  obtain ⟨stmt, hphase, hterm, -⟩ := hstep.replaces hcur hnew
  have hfree := h.current t hcur
  rw [hphase] at hfree
  exact hfree (.inr hterm)

theorem LocksOk.step {c' : ClientId} (h : LocksOk s c) (howned : Owned s) (hstep : Step s (c', e) s')
    (hclean : c' = c → Clean s c e) : LocksOk s' c := by
  by_cases hc : c = c'
  · subst hc
    refine ⟨PhaseFree.step hstep (hclean rfl) h.current howned, ?_⟩
    intro t hstarted hne
    rcases Owned.started_cases hstep hstarted with hstarted | ⟨-, -, hcur⟩
    · rw [State.Free, (howned.sameTxn_of_old hstep hstarted hne).lockSet]
      by_cases hcur : s.txnId c = some t
      · exact h.replaced hstep hcur hne
      · exact h.old t hstarted hcur
    · exact absurd hcur hne
  · obtain ⟨hphase, htxn⟩ := hstep.others hc
    constructor
    · intro t hcur
      rw [htxn] at hcur
      rw [hphase]
      exact (h.current t hcur).of_same (howned.sameTxn_of_ne hstep hc (howned.owner c t hcur))
    · intro t hstarted hne
      rcases Owned.started_cases hstep hstarted with hstarted | ⟨-, heq, -⟩
      · rw [State.Free, (howned.sameTxn_of_ne hstep hc hstarted).lockSet]
        exact h.old t hstarted (htxn ▸ hne)
      · exact absurd heq hc

theorem LocksOk.run {tr : List (State × (ClientId × Event))} (htr : Trace Step initial tr s)
    (hclean : ∀ x ∈ tr, x.2.1 = c → Clean x.1 c x.2.2) : LocksOk s c := by
  refine (htr.inv (I := fun s => Owned s ∧ LocksOk s c) (C := fun s x => x.1 = c → Clean s c x.2) hclean
    ⟨.initial, fun t ht => ?_, fun t ht => ?_⟩ fun ha hC hstep => ?_).2
  · cases ht
  · cases ht
  · exact ⟨ha.1.step hstep, ha.2.step ha.1 hstep hC⟩

/-! ### Locks that are lost -/

/-- A rollback that has its writes still to undo has set the state, or is about to. -/
def UndoOk (s : State) : Prop := ∀ c t region ops, s.phase c = .ops region ops → s.txnId c = some t → .undo ∈ ops →
  ops = abortOps ∨ ops = [.undo, .collect, .log .abort] ∧ Terminal (s.state t)

theorem After.undo_mem {locks : Finset LockDataId} {op : Op} {rest rest' : List Op} (h : op.After locks rest rest')
    (hundo : .undo ∈ rest') : .undo ∈ rest := by
  cases h with
  | collect =>
    refine (List.mem_append.mp hundo).resolve_left ?_
    intro hmem
    obtain ⟨item, -, heq⟩ := List.mem_map.mp hmem
    cases heq
  | next => exact hundo

theorem UndoOk.step (h : UndoOk s) (howned : Owned s) (hstep : Step s (c, e) s') : UndoOk s' := by
  intro c' t region ops hphase htxn hundo
  by_cases hc : c' = c
  · subst hc
    have hgo : ∀ {s₁ phase}, (State.goto s₁ c' phase).phase c' = .ops region ops → phase = .ops region ops :=
      fun hphase => (Function.update_self ..).symm.trans hphase
    cases hstep with
    | request | leave | keepTxn | beginTxn | finish | replyFails | throws => cases hgo hphase
    | @execute _ stmt =>
      cases stmt with
      | nothing | begin | other => cases hgo hphase
      | commit =>
        cases hgo hphase
        exact absurd hundo (by decide)
      | abort =>
        cases hgo hphase
        exact .inl rfl
    | grant hrunning => cases hrunning.symm.trans hphase
    | change hrunning => cases hrunning.symm.trans hphase
    | refuse =>
      cases hgo hphase
      exact .inl rfl
    | @done _ region' => cases region' <;> cases hgo hphase
    | @reply _ t' =>
      by_cases hmode : s.txnMode t' = true
      · rw [if_pos hmode] at hphase
        cases hgo hphase
      · rw [if_neg hmode] at hphase
        cases hgo hphase
        exact absurd hundo (by decide)
    | @op _ t' region' op rest rest' hphase' htxn' hafter =>
      cases hgo hphase
      have htxn'' : s.txnId c' = some t := (congrFun (exec_txnId op t' s) c').symm.trans htxn
      obtain rfl := Option.some.inj (htxn'.symm.trans htxn'')
      rcases h c' t' region _ hphase' htxn' (List.mem_cons_of_mem _ (After.undo_mem hafter hundo)) with heq | ⟨heq, -⟩
      · obtain ⟨rfl, rfl⟩ := List.cons.inj heq
        rw [After.eq hafter (by decide)]
        exact .inr ⟨rfl, .inr (Function.update_self ..)⟩
      · obtain ⟨rfl, rfl⟩ := List.cons.inj heq
        rw [After.eq hafter (by decide)] at hundo
        exact absurd hundo (by decide)
  · obtain ⟨hphase', htxn'⟩ := hstep.others hc
    rw [hphase'] at hphase
    rw [htxn'] at htxn
    rw [(howned.sameTxn_of_ne hstep hc (howned.owner c' t htxn)).state]
    exact h c' t region ops hphase htxn hundo

theorem UndoOk.run {tr : List (State × (ClientId × Event))} (htr : Trace Step initial tr s) : UndoOk s := by
  refine (htr.inv' (I := fun s => Owned s ∧ UndoOk s) ⟨.initial, fun c t region ops hphase => ?_⟩ fun ha hstep => ?_).2
  · cases hphase
  · exact ⟨ha.1.step hstep, ha.2.step ha.1 hstep⟩

/-- A transaction of a session that has locks and that nobody is going to end: another one has taken its place, or the
session has left, or it is explicit and has ended already. -/
structure Lost (s : State) (c : ClientId) (t : TxnId) : Prop where
  started : s.startedBy t = some c
  locked : ¬ s.Free t
  place : s.txnId c = some t → s.phase c = .left ∨
    s.txnMode t = true ∧ Terminal (s.state t) ∧ (s.phase c = .waiting ∨ (∃ stmt, s.phase c = .setting stmt) ∨ s.phase c = .replying)

theorem Lost.step_own (h : Lost s c t) (hstep : Step s (c, e) s') (hcur : s.txnId c = some t) (hcur' : s'.txnId c = some t)
    (hne : t ≠ s.nextTxnId) :
    ¬ s'.Free t ∧ (s'.txnId c = some t → s'.phase c = .left ∨ s'.txnMode t = true ∧ Terminal (s'.state t) ∧
      (s'.phase c = .waiting ∨ (∃ stmt, s'.phase c = .setting stmt) ∨ s'.phase c = .replying)) := by
  have hlocked := h.locked
  have hgo : ∀ {s₁ : State} {phase}, (s₁.goto c phase).phase c = phase := Function.update_self ..
  rcases h.place hcur with hplace | ⟨hmode, hterm, hplace | ⟨stmt, hplace⟩ | hplace⟩
  · cases hstep with
    | request hphase | leave hphase | keepTxn hphase | beginTxn hphase | execute hphase | grant hphase | refuse hphase
    | change hphase | finish hphase | op hphase | throws hphase | done hphase | reply hphase | replyFails hphase =>
      cases hplace.symm.trans hphase
  · cases hstep with
    | keepTxn hphase | beginTxn hphase | execute hphase | grant hphase | refuse hphase | change hphase | finish hphase
    | op hphase | throws hphase | done hphase | reply hphase | replyFails hphase => cases hplace.symm.trans hphase
    | request => exact ⟨hlocked, fun _ => .inr ⟨hmode, hterm, .inr (.inl ⟨_, hgo⟩)⟩⟩
    | leave => exact ⟨hlocked, fun _ => .inl hgo⟩
  · cases hstep with
    | request hphase | leave hphase | execute hphase | grant hphase | refuse hphase | change hphase | finish hphase
    | op hphase | throws hphase | done hphase | reply hphase | replyFails hphase => cases hplace.symm.trans hphase
    | keepTxn _ htxn hnot =>
      obtain rfl := Option.some.inj (htxn.symm.trans hcur)
      exact absurd hterm hnot
    | beginTxn =>
      have hnew : (s.beginTxn c).txnId c = some s.nextTxnId := Function.update_self ..
      exact absurd (Option.some.inj (hnew.symm.trans hcur')).symm hne
  · cases hstep with
    | request hphase | leave hphase | keepTxn hphase | beginTxn hphase | execute hphase | grant hphase | refuse hphase
    | change hphase | finish hphase | op hphase | throws hphase | done hphase => cases hplace.symm.trans hphase
    | reply _ htxn =>
      obtain rfl := Option.some.inj (htxn.symm.trans hcur)
      rw [if_pos hmode]
      exact ⟨hlocked, fun _ => .inr ⟨hmode, hterm, .inl hgo⟩⟩
    | replyFails => exact ⟨hlocked, fun _ => .inl hgo⟩

/-- **Locks that are lost stay lost.** -/
theorem Lost.step {c' : ClientId} (h : Lost s c t) (howned : Owned s) (hstep : Step s (c', e) s') : Lost s' c t := by
  have hstarted' := howned.started hstep h.started
  by_cases hc : c = c'
  · subst hc
    by_cases hcur' : s'.txnId c = some t
    · have hcur : s.txnId c = some t := by
        rcases hstep.txn_cases with ⟨hsame, -⟩ | ⟨hnew, -⟩
        · exact hsame.symm.trans hcur'
        · exact absurd (Option.some.inj (hnew.symm.trans hcur')).symm (Nat.ne_of_lt (howned.known c t h.started))
      obtain ⟨hlocked, hplace⟩ := h.step_own hstep hcur hcur' (Nat.ne_of_lt (howned.known c t h.started))
      exact ⟨hstarted', hlocked, hplace⟩
    · have hsame := howned.sameTxn_of_old hstep h.started hcur'
      exact ⟨hstarted', by rw [State.Free, hsame.lockSet]; exact h.locked, fun hcur => absurd hcur hcur'⟩
  · obtain ⟨hphase, htxn⟩ := hstep.others hc
    have hsame := howned.sameTxn_of_ne hstep hc h.started
    refine ⟨hstarted', by rw [State.Free, hsame.lockSet]; exact h.locked, ?_⟩
    rw [htxn, hphase, hsame.txnMode, hsame.state]
    exact h.place

theorem Lost.run {tr : List (State × (ClientId × Event))} (h : Lost s c t) (howned : Owned s) (htr : Trace Step s tr s') :
    Lost s' c t := by
  refine (htr.inv' (I := fun s => Owned s ∧ Lost s c t) ⟨howned, h⟩ fun ha hstep => ?_).2
  exact ⟨ha.1.step hstep, ha.2.step ha.1 hstep⟩

/-- A step that does not meet the condition loses locks. -/
theorem lost_of_not_clean (howned : Owned s) (hundo : UndoOk s) (hstep : Step s (c, e) s') (h : ¬ Clean s c e) :
    ∃ t, Lost s' c t := by
  have hgo : ∀ {s₁ : State} {phase}, (s₁.goto c phase).phase c = phase := Function.update_self ..
  cases hstep with
  | leave | replyFails =>
    simp only [Clean, not_forall] at h
    obtain ⟨t, hcur, -, hlocked⟩ := h
    exact ⟨t, howned.owner c t hcur, hlocked, fun _ => .inl hgo⟩
  | @throws _ t' op rest appended hphase htxn hop =>
    rcases hop with ⟨rfl, rfl⟩ | ⟨type, rfl⟩
    · simp only [Clean, not_forall] at h
      obtain ⟨t, hcur, hmode, hlocked⟩ := h
      have hterm : Terminal (s.state t) := by
        rcases hundo c t _ _ hphase hcur List.mem_cons_self with heq | ⟨-, hterm⟩
        · cases heq
        · exact hterm
      exact ⟨t, howned.owner c t hcur, hlocked, fun _ => .inr ⟨hmode, hterm, .inr (.inr hgo)⟩⟩
    · exact absurd trivial h
  | _ => exact absurd trivial h

/-- **When the locks of a session are released**: after it has left its loop, no request in the lock table is of a
transaction that it has begun if and only if its steps met the condition. -/
theorem released_iff {tr : List (State × (ClientId × Event))} (htr : Trace Step initial tr s) (hleft : s.phase c = .left) :
    (∀ t, s.startedBy t = some c → ∀ item, ¬ Holds (s.lockManager.requests item) t) ↔
      ∀ x ∈ tr, x.2.1 = c → Clean x.1 c x.2.2 := by
  have howned := Owned.run htr
  have hfree : ∀ t, (∀ item, ¬ Holds (s.lockManager.requests item) t) ↔ s.Free t := fun t => by
    simp only [← howned.locks.mirrors, State.Free, Finset.eq_empty_iff_forall_notMem]
  simp only [hfree]
  constructor
  · intro hall x hx hc
    by_contra hnot
    obtain ⟨a, c', e⟩ := x
    obtain rfl : c' = c := hc
    obtain ⟨tr₁, tr₂, b, h₁, h₂, h₃⟩ := htr.split hx
    have hbefore := Owned.run h₁
    obtain ⟨t, hlost⟩ := lost_of_not_clean hbefore (UndoOk.run h₁) h₂ hnot
    have hlost' := hlost.run (hbefore.step h₂) h₃
    exact hlost'.locked (hall t hlost'.started)
  · intro hclean t hstarted
    have hok := LocksOk.run htr hclean
    by_cases hcur : s.txnId c = some t
    · have hcurrent := hok.current t hcur
      rw [hleft] at hcurrent
      exact hcurrent
    · exact hok.old t hstarted hcur

/-- A lock that is the only one. -/
theorem After.collect_one {locks : Finset LockDataId} {item : LockDataId} (hlocks : locks = {item}) (rest : List Op) :
    Op.After locks .collect rest (.unlock item :: rest) :=
  @Op.After.collect locks [item] rest fun item' => by simp [hlocks]

/-- `BEGIN`, a statement that reads a table, and `COMMIT`; then the session leaves. -/
theorem released_iff_commit : ∃ tr s, Trace Step initial tr s ∧ s.phase 0 = .left ∧ (0, .grant) ∈ tr.map (·.2) ∧
    ((∀ t, s.startedBy t = some 0 → ∀ item, ¬ Holds (s.lockManager.requests item) t) ↔
      ∀ x ∈ tr, x.2.1 = 0 → Clean x.1 0 x.2.2) := by
  have h₁ := (@Trace.nil _ _ Step initial).snoc (@Step.request _ 0 .begin rfl)
  have h₂ := h₁.snoc (.beginTxn (c := 0) rfl fun t ht => by cases ht)
  have h₃ := h₂.snoc (.execute (c := 0) rfl rfl)
  have h₄ := h₃.snoc (.reply (c := 0) rfl rfl)
  have h₅ := h₄.snoc (@Step.request _ 0 .other rfl)
  have h₆ := h₅.snoc (.keepTxn (c := 0) rfl rfl (by decide))
  have h₇ := h₆.snoc (.execute (c := 0) rfl rfl)
  have h₈ := h₇.snoc (@Step.grant _ 0 _ (.table 0) .shared _ rfl rfl rfl)
  have h₉ := h₈.snoc (.finish (c := 0) rfl)
  have h₁₀ := h₉.snoc (.reply (c := 0) rfl rfl)
  have h₁₁ := h₁₀.snoc (@Step.request _ 0 .commit rfl)
  have h₁₂ := h₁₁.snoc (.keepTxn (c := 0) rfl rfl (by decide))
  have h₁₃ := h₁₂.snoc (.execute (c := 0) rfl rfl)
  have h₁₄ := h₁₃.snoc (.op (c := 0) rfl rfl (.next (by decide)))
  have h₁₅ := h₁₄.snoc (.op (c := 0) rfl rfl (@After.collect_one _ (.table 0) rfl _))
  have h₁₆ := h₁₅.snoc (.op (c := 0) rfl rfl (.next (by decide)))
  have h₁₇ := h₁₆.snoc (.op (c := 0) rfl rfl (.next (by decide)))
  have h₁₈ := h₁₇.snoc (.done (c := 0) rfl)
  have h₁₉ := h₁₈.snoc (.reply (c := 0) rfl rfl)
  have hrun := h₁₉.snoc (.leave (c := 0) rfl)
  exact ⟨_, _, hrun, rfl, by simp, released_iff hrun rfl⟩

/-- The connection is closed after `BEGIN` and a statement that reads a table. -/
theorem not_released : ¬ ∀ tr s, Trace Step initial tr s → ∀ c, s.phase c = .left →
    ∀ t, s.startedBy t = some c → ∀ item, ¬ Holds (s.lockManager.requests item) t := by
  intro hall
  have h₁ := (@Trace.nil _ _ Step initial).snoc (@Step.request _ 0 .begin rfl)
  have h₂ := h₁.snoc (.beginTxn (c := 0) rfl fun t ht => by cases ht)
  have h₃ := h₂.snoc (.execute (c := 0) rfl rfl)
  have h₄ := h₃.snoc (.reply (c := 0) rfl rfl)
  have h₅ := h₄.snoc (@Step.request _ 0 .other rfl)
  have h₆ := h₅.snoc (.keepTxn (c := 0) rfl rfl (by decide))
  have h₇ := h₆.snoc (.execute (c := 0) rfl rfl)
  have h₈ := h₇.snoc (@Step.grant _ 0 _ (.table 0) .shared _ rfl rfl rfl)
  have h₉ := h₈.snoc (.finish (c := 0) rfl)
  have h₁₀ := h₉.snoc (.reply (c := 0) rfl rfl)
  have hrun := h₁₀.snoc (.leave (c := 0) rfl)
  exact hall _ _ hrun 0 rfl 0 rfl (.table 0) ⟨⟨0, .shared⟩, List.mem_singleton_self _, rfl⟩

end Rmdb.Server
