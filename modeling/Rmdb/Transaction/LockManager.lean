import Rmdb.Transaction.Lock
import Rmdb.Lib.Trace
import Mathlib.Data.Finset.Basic

/-!
# The lock manager over whole runs

`LockManager` with its lock table and, for every transaction, its state and its `lock_set_`.
`request_lock` and `unlock` run under the latch and are one step each; a lock on a record
is two requests, the intention lock on its table and the lock on the record, and between
the two any other transaction may take steps. A run is any interleaving of such steps
(`Step`), from a lock manager without locks and transactions in any state.

`lockManager_safe` says what holds in every state of every run: compatible modes, one
request for a transaction and an item, which covers what has been granted, lock sets that
mirror the lock table, group modes that are up to date, refusals that change nothing, and
no lock after an unlock.
-/

namespace Rmdb.Transaction

open Lib

/-- `LockDataId`: a table or a record of it. -/
inductive LockDataId where
  /-- `LockDataType::TABLE`. -/
  | table (fd : ℤ)
  /-- `LockDataType::RECORD`. -/
  | record (fd : ℤ) (rid : Rid)
deriving DecidableEq

/-- `GroupLockMode`. -/
inductive GroupLockMode where
  /-- `NON_LOCK`. -/
  | nonLock
  /-- `IS`. -/
  | is
  /-- `IX`. -/
  | ix
  /-- `S`. -/
  | s
  /-- `X`. -/
  | x
  /-- `SIX`. -/
  | six
deriving DecidableEq

/-- `group_mode`. -/
def groupMode (queue : Queue) : GroupLockMode :=
  let has (mode : LockMode) := queue.any fun r => r.lockMode = mode
  if has .exclusive then .x
  else if has .sIX || (has .shared && has .intentionExclusive) then .six
  else if has .shared then .s
  else if has .intentionExclusive then .ix
  else if has .intentionShared then .is
  else .nonLock

/-- `LockRequestQueue`. -/
structure LockRequestQueue where
  /-- `request_queue_`. -/
  requestQueue : Queue
  /-- `group_lock_mode_`. -/
  groupLockMode : GroupLockMode

/-- `TransactionState`. -/
inductive TransactionState where
  /-- `DEFAULT`. -/
  | default
  /-- `GROWING`. -/
  | growing
  /-- `SHRINKING`. -/
  | shrinking
  /-- `COMMITTED`. -/
  | committed
  /-- `ABORTED`. -/
  | aborted
deriving DecidableEq

/-- `AbortReason`. -/
inductive AbortReason where
  /-- `LOCK_ON_SHIRINKING`. -/
  | lockOnShrinking
  /-- `UPGRADE_CONFLICT`. -/
  | upgradeConflict
  /-- `DEADLOCK_PREVENTION`. -/
  | deadlockPrevention
deriving DecidableEq

/-- `LockManager` and what it uses of the transactions. -/
structure LockManager where
  /-- `lock_table_`. -/
  lockTable : LockDataId → Option LockRequestQueue
  /-- `state_` of the transactions. -/
  state : TxnId → TransactionState
  /-- `lock_set_` of the transactions. -/
  lockSet : TxnId → Finset LockDataId
  /-- The requests a transaction has still to make in the call it is in. -/
  pending : TxnId → List (LockDataId × LockMode)

/-- A call of the lock manager that asks for locks. -/
inductive LockCall where
  /-- `lock_shared_on_record`. -/
  | lockSharedOnRecord (rid : Rid) (tabFd : ℤ)
  /-- `lock_exclusive_on_record`. -/
  | lockExclusiveOnRecord (rid : Rid) (tabFd : ℤ)
  /-- `lock_shared_on_table`. -/
  | lockSharedOnTable (tabFd : ℤ)
  /-- `lock_exclusive_on_table`. -/
  | lockExclusiveOnTable (tabFd : ℤ)
  /-- `lock_IS_on_table`. -/
  | lockISOnTable (tabFd : ℤ)
  /-- `lock_IX_on_table`. -/
  | lockIXOnTable (tabFd : ℤ)

/-- The requests of a call, in order. -/
def LockCall.requests : LockCall → List (LockDataId × LockMode)
  | lockSharedOnRecord rid tabFd => [(.table tabFd, .intentionShared), (.record tabFd rid, .shared)]
  | lockExclusiveOnRecord rid tabFd => [(.table tabFd, .intentionExclusive), (.record tabFd rid, .exclusive)]
  | lockSharedOnTable tabFd => [(.table tabFd, .shared)]
  | lockExclusiveOnTable tabFd => [(.table tabFd, .exclusive)]
  | lockISOnTable tabFd => [(.table tabFd, .intentionShared)]
  | lockIXOnTable tabFd => [(.table tabFd, .intentionExclusive)]

namespace LockManager

/-- The requests on an item. -/
def requests (lm : LockManager) (item : LockDataId) : Queue := ((lm.lockTable item).map (·.requestQueue)).getD []

/-- `lock_table_[lock_data_id]` makes the queue if there is none. -/
def touch (lm : LockManager) (item : LockDataId) : LockManager :=
  { lm with lockTable := Function.update lm.lockTable item (some ((lm.lockTable item).getD ⟨[], .nonLock⟩)) }

/-- `request_lock`: the lock manager after it, and why it threw if it did. -/
def request (lm : LockManager) (t : TxnId) (item : LockDataId) (mode : LockMode) : LockManager × Option AbortReason :=
  if lm.state t ≠ .growing then (lm, some .lockOnShrinking)
  else if ((lm.requests item).find? fun r => r.txnId = t).any fun own => subsumes own.lockMode mode then
    (lm.touch item, none)
  else match requestLock (lm.requests item) t mode with
    | none => (lm.touch item, some .deadlockPrevention)
    | some queue =>
      ({ lm with
          lockTable := Function.update lm.lockTable item (some ⟨queue, groupMode queue⟩)
          lockSet := Function.update lm.lockSet t (insert item (lm.lockSet t)) }, none)

/-- `unlock`: the lock manager after it, and its result. -/
def unlock (lm : LockManager) (t : TxnId) (item : LockDataId) : LockManager × Bool :=
  match lm.lockTable item with
  | none => (lm, false)
  | some q =>
    if q.requestQueue.any fun r => r.txnId = t then
      let queue := Transaction.unlock q.requestQueue t
      ({ lm with
          lockTable := Function.update lm.lockTable item (if queue = [] then none else some ⟨queue, groupMode queue⟩)
          lockSet := Function.update lm.lockSet t ((lm.lockSet t).erase item)
          state := Function.update lm.state t (if lm.state t = .growing then .shrinking else lm.state t) }, true)
    else (lm, false)

/-- What a step was. -/
inductive Event where
  /-- A call begins. -/
  | call (t : TxnId) (c : LockCall)
  /-- A request is granted. -/
  | granted (t : TxnId) (item : LockDataId) (mode : LockMode)
  /-- A request throws, and with it the call. -/
  | refused (t : TxnId) (item : LockDataId) (mode : LockMode) (reason : AbortReason)
  /-- `unlock` returns `true`. -/
  | unlocked (t : TxnId) (item : LockDataId)
  /-- `unlock` returns `false`. -/
  | notHeld (t : TxnId) (item : LockDataId)

/-- A step of a transaction that uses the lock manager. -/
inductive Step (lm : LockManager) : Event → LockManager → Prop where
  /-- It calls, when it is not in a call. -/
  | call {t : TxnId} (c : LockCall) : lm.pending t = [] →
      Step lm (.call t c) { lm with pending := Function.update lm.pending t c.requests }
  /-- Its next request is granted. -/
  | granted {t : TxnId} {item : LockDataId} {mode : LockMode} {rest : List (LockDataId × LockMode)} {lm' : LockManager} :
      lm.pending t = (item, mode) :: rest → lm.request t item mode = (lm', none) →
      Step lm (.granted t item mode) { lm' with pending := Function.update lm'.pending t rest }
  /-- Its next request throws. -/
  | refused {t : TxnId} {item : LockDataId} {mode : LockMode} {rest : List (LockDataId × LockMode)} {lm' : LockManager}
      {reason : AbortReason} : lm.pending t = (item, mode) :: rest → lm.request t item mode = (lm', some reason) →
      Step lm (.refused t item mode reason) { lm' with pending := Function.update lm'.pending t [] }
  /-- It unlocks an item it has a lock on. -/
  | unlocked {t : TxnId} {item : LockDataId} {lm' : LockManager} : lm.pending t = [] →
      lm.unlock t item = (lm', true) → Step lm (.unlocked t item) lm'
  /-- It unlocks another item. -/
  | notHeld {t : TxnId} {item : LockDataId} {lm' : LockManager} : lm.pending t = [] →
      lm.unlock t item = (lm', false) → Step lm (.notHeld t item) lm'

/-- No lock has been asked for, and the transactions are in any state. -/
structure Initial (lm : LockManager) : Prop where
  /-- The lock table is empty. -/
  lockTable : ∀ item, lm.lockTable item = none
  /-- The lock sets are empty. -/
  lockSet : ∀ t, lm.lockSet t = ∅
  /-- No call is under way. -/
  pending : ∀ t, lm.pending t = []

/-- A mode conflicts with everything another one conflicts with. -/
def Covers (mode mode' : LockMode) : Prop := ∀ other, compatible mode' other = false → compatible mode other = false

/-- In the run the mode has been granted to the transaction on the item, and the item has not been unlocked since. -/
def GrantedIn (tr : List (LockManager × Event)) (t : TxnId) (item : LockDataId) (mode : LockMode) : Prop :=
  ∃ A lm B, tr = A ++ (lm, .granted t item mode) :: B ∧ ∀ x ∈ B, x.2 ≠ .unlocked t item

/-- **What the lock manager guarantees** after a run. -/
structure Safe (tr : List (LockManager × Event)) (lm : LockManager) : Prop where
  /-- Different transactions hold compatible modes on an item. -/
  compatible : ∀ item a b, a ∈ lm.requests item → b ∈ lm.requests item → a.txnId ≠ b.txnId →
    compatible a.lockMode b.lockMode = true
  /-- A transaction has at most one request on an item. -/
  single : ∀ item, ((lm.requests item).map (·.txnId)).Nodup
  /-- The request covers every mode granted to the transaction on the item since it last unlocked it. -/
  covers : ∀ t item mode, GrantedIn tr t item mode → ∃ own ∈ lm.requests item, own.txnId = t ∧ Covers own.lockMode mode
  /-- The lock sets mirror the lock table. -/
  mirrors : ∀ t item, item ∈ lm.lockSet t ↔ ∃ own ∈ lm.requests item, own.txnId = t
  /-- The group modes are up to date. -/
  groupModes : ∀ item q, lm.lockTable item = some q → q.groupLockMode = groupMode q.requestQueue
  /-- A request that throws leaves the requests on every item as they are. -/
  refused : ∀ t item mode reason lm', Step lm (.refused t item mode reason) lm' → lm'.requests = lm.requests
  /-- A transaction that has unlocked an item is granted nothing any more. -/
  twoPhase : ∀ A lm₁ t item B, tr = A ++ (lm₁, .unlocked t item) :: B → ∀ x ∈ B, ∀ item' mode, x.2 ≠ .granted t item' mode

/-! ### Requests and their modes -/

theorem covers_refl (mode : LockMode) : Covers mode mode := fun _ h => h

theorem Covers.trans {a b c : LockMode} (h₁ : Covers a b) (h₂ : Covers b c) : Covers a c := fun o h => h₁ o (h₂ o h)

theorem covers_of_subsumes {held mode : LockMode} (h : subsumes held mode = true) : Covers held mode := by
  intro o ho
  revert h ho
  cases held <;> cases mode <;> cases o <;> decide

theorem covers_combine (held mode : LockMode) : Covers (combine held mode) held ∧ Covers (combine held mode) mode := by
  constructor <;> intro o ho <;> revert ho <;> cases held <;> cases mode <;> cases o <;> decide

/-- The transaction has a request that covers the mode. -/
def Has (queue : Queue) (t : TxnId) (mode : LockMode) : Prop := ∃ own ∈ queue, own.txnId = t ∧ Covers own.lockMode mode

section Queues

variable {queue queue' : Queue} {t t' : TxnId} {mode m : LockMode}

/-- The request of the transaction that `find` finds is its only one. -/
theorem find_eq_of_mem (hq : QueueOk queue) {own : LockRequest} (hown : own ∈ queue) :
    (queue.find? fun r => r.txnId = own.txnId) = some own := by
  obtain ⟨r, hr⟩ : ∃ r, (queue.find? fun r => r.txnId = own.txnId) = some r :=
    Option.isSome_iff_exists.mp (List.find?_isSome.mpr ⟨own, hown, by simp⟩)
  rcases hq.mem hown (List.mem_of_find?_eq_some hr) with rfl | ⟨hne, -⟩
  · exact hr
  · exact absurd (by simpa using List.find?_some hr : r.txnId = own.txnId).symm hne

theorem target_of_mem (hq : QueueOk queue) {own : LockRequest} (hown : own ∈ queue) :
    target queue own.txnId mode = combine own.lockMode mode := by
  simp only [target, find_eq_of_mem hq hown]

theorem covers_target (queue : Queue) (t : TxnId) (mode : LockMode) : Covers (target queue t mode) mode := by
  unfold target
  split
  · exact (covers_combine _ _).2
  · exact covers_refl _

/-- A granted request covers its mode. -/
theorem has_requestLock (h : requestLock queue t mode = some queue') : Has queue' t mode := by
  rcases requestLock_cases h with ⟨rfl, own, hown, rfl, hsub⟩ | ⟨-, ⟨⟨r, hr, rfl⟩, rfl⟩ | ⟨-, rfl⟩⟩
  · exact ⟨own, hown, rfl, covers_of_subsumes hsub⟩
  · exact ⟨_, List.mem_map_of_mem hr, by simp, by simpa using covers_target queue r.txnId mode⟩
  · exact ⟨_, List.mem_append_right _ List.mem_cons_self, rfl, covers_target queue t mode⟩

/-- What a request covers it goes on to cover when a request is granted. -/
theorem Has.requestLock (hm : Has queue t' m) (hq : QueueOk queue) (h : requestLock queue t mode = some queue') :
    Has queue' t' m := by
  obtain ⟨own, hown, rfl, hcov⟩ := hm
  rcases requestLock_cases h with ⟨rfl, -⟩ | ⟨-, ⟨-, rfl⟩ | ⟨-, rfl⟩⟩
  · exact ⟨own, hown, rfl, hcov⟩
  · refine ⟨_, List.mem_map_of_mem hown, ?_, ?_⟩
    · split <;> rfl
    · by_cases ht : own.txnId = t
      · subst ht
        rw [if_pos rfl, target_of_mem hq hown]
        exact (covers_combine _ _).1.trans hcov
      · rwa [if_neg ht]
  · exact ⟨own, List.mem_append_left _ hown, rfl, hcov⟩

theorem Has.unlock_of_ne (hm : Has queue t' m) (hne : t' ≠ t) : Has (Transaction.unlock queue t) t' m := by
  obtain ⟨own, hown, rfl, hcov⟩ := hm
  exact ⟨own, (List.mem_eraseP_of_neg (by simpa using hne)).mpr hown, rfl, hcov⟩

/-- A transaction holds a lock after a granted request if it did so before, or made the request. -/
theorem holds_requestLock_iff (h : requestLock queue t mode = some queue') :
    Holds queue' t' ↔ t' = t ∨ Holds queue t' := by
  by_cases hne : t' = t
  · subst hne
    obtain ⟨own, hown, rfl, -⟩ := has_requestLock h
    exact ⟨fun _ => Or.inl rfl, fun _ => ⟨own, hown, rfl⟩⟩
  · rw [holds_requestLock h hne]
    simp [hne]

end Queues

/-! ### One call -/

section Calls

variable {lm lm' : LockManager} {t : TxnId} {item : LockDataId} {mode : LockMode}

/-- The invariant of the lock manager. -/
structure Ok (lm : LockManager) : Prop where
  queues : ∀ item, QueueOk (lm.requests item)
  mirrors : ∀ t item, item ∈ lm.lockSet t ↔ Holds (lm.requests item) t
  groupModes : ∀ item q, lm.lockTable item = some q → q.groupLockMode = groupMode q.requestQueue

theorem requests_update (lm : LockManager) (item : LockDataId) (q : LockRequestQueue) (sets : TxnId → Finset LockDataId)
    (item' : LockDataId) : requests { lm with
      lockTable := Function.update lm.lockTable item (some q)
      lockSet := sets } item' = if item' = item then q.requestQueue else lm.requests item' := by
  by_cases h : item' = item <;> simp [requests, h]

@[simp] theorem requests_touch (lm : LockManager) (item : LockDataId) : (lm.touch item).requests = lm.requests := by
  funext item'
  by_cases h : item' = item
  · subst h
    simp only [requests, touch, Function.update_self]
    cases lm.lockTable item' <;> rfl
  · simp [requests, touch, h]

theorem Ok.touch (h : lm.Ok) (item : LockDataId) : (lm.touch item).Ok where
  queues := by simpa using h.queues
  mirrors := by
    rw [requests_touch]
    exact h.mirrors
  groupModes := by
    intro item' q hq
    by_cases hi : item' = item
    · subst hi
      simp only [LockManager.touch, Function.update_self, Option.some.injEq] at hq
      rcases hl : lm.lockTable item' with _ | q₀
      · rw [← hq, hl]
        rfl
      · rw [← hq, hl]
        exact h.groupModes item' q₀ hl
    · simp only [LockManager.touch, Function.update_of_ne hi] at hq
      exact h.groupModes item' q hq

/-- What `request_lock` does. -/
theorem request_cases {out : Option AbortReason} (h : lm.request t item mode = (lm', out)) :
    lm'.state = lm.state ∧ lm'.pending = lm.pending ∧
      ((out ≠ none ∧ (lm' = lm ∨ lm' = lm.touch item)) ∨
        (out = none ∧ lm.state t = .growing ∧ lm' = lm.touch item ∧ Has (lm.requests item) t mode) ∨
        (out = none ∧ lm.state t = .growing ∧ ∃ queue, requestLock (lm.requests item) t mode = some queue ∧
          lm' = { lm with
            lockTable := Function.update lm.lockTable item (some ⟨queue, groupMode queue⟩)
            lockSet := Function.update lm.lockSet t (insert item (lm.lockSet t)) })) := by
  unfold request at h
  split at h
  · obtain ⟨rfl, rfl⟩ := Prod.mk.inj h
    exact ⟨rfl, rfl, Or.inl ⟨by simp, Or.inl rfl⟩⟩
  · rename_i hgrow
    have hgrow := not_not.mp hgrow
    split at h
    · rename_i hown
      obtain ⟨rfl, rfl⟩ := Prod.mk.inj h
      obtain ⟨own, hfind, hsub⟩ := Option.any_eq_true _ _ |>.mp hown
      refine ⟨rfl, rfl, Or.inr (Or.inl ⟨rfl, hgrow, rfl, own, List.mem_of_find?_eq_some hfind, ?_, covers_of_subsumes hsub⟩)⟩
      simpa using List.find?_some hfind
    · split at h
      · obtain ⟨rfl, rfl⟩ := Prod.mk.inj h
        exact ⟨rfl, rfl, Or.inl ⟨by simp, Or.inr rfl⟩⟩
      · rename_i queue hreq
        obtain ⟨rfl, rfl⟩ := Prod.mk.inj h
        exact ⟨rfl, rfl, Or.inr (Or.inr ⟨rfl, hgrow, queue, hreq, rfl⟩)⟩

/-- What `unlock` does. -/
theorem unlock_cases {b : Bool} (h : lm.unlock t item = (lm', b)) :
    (b = false ∧ lm' = lm) ∨
    (b = true ∧ lm'.state t ≠ .growing ∧ (∀ t', t' ≠ t → lm'.state t' = lm.state t') ∧
      (∀ item', lm'.requests item' = if item' = item then Transaction.unlock (lm.requests item) t else lm.requests item') ∧
      lm'.lockSet = Function.update lm.lockSet t ((lm.lockSet t).erase item) ∧
      ∀ item' q, lm'.lockTable item' = some q → lm.lockTable item' = some q ∨ q.groupLockMode = groupMode q.requestQueue) := by
  unfold unlock at h
  split at h
  · obtain ⟨rfl, rfl⟩ := Prod.mk.inj h
    exact Or.inl ⟨rfl, rfl⟩
  · rename_i q hq
    have hreq : lm.requests item = q.requestQueue := by simp [requests, hq]
    split at h
    · obtain ⟨rfl, rfl⟩ := Prod.mk.inj h
      refine Or.inr ⟨rfl, ?_, fun t' ht' => Function.update_of_ne ht' _ _, ?_, rfl, ?_⟩
      · simp only [Function.update_self]
        split
        · decide
        · assumption
      · intro item'
        by_cases hi : item' = item
        · subst hi
          rw [if_pos rfl, hreq]
          simp only [requests, Function.update_self]
          split
          · rename_i hnil
            simp [hnil]
          · rfl
        · simp [requests, hi]
      · intro item' q' hq'
        by_cases hi : item' = item
        · subst hi
          simp only [Function.update_self] at hq'
          split at hq'
          · cases hq'
          · cases hq'
            exact Or.inr rfl
        · simp only [Function.update_of_ne hi] at hq'
          exact Or.inl hq'
    · obtain ⟨rfl, rfl⟩ := Prod.mk.inj h
      exact Or.inl ⟨rfl, rfl⟩

theorem Ok.request (h : lm.Ok) {out : Option AbortReason} (hreq : lm.request t item mode = (lm', out)) : lm'.Ok := by
  obtain ⟨-, -, ⟨-, rfl | rfl⟩ | ⟨-, -, rfl, -⟩ | ⟨-, -, queue, hq, rfl⟩⟩ := request_cases hreq
  · exact h
  · exact h.touch item
  · exact h.touch item
  · refine ⟨?_, ?_, ?_⟩
    · intro item'
      rw [requests_update]
      split
      · exact (h.queues item).requestLock hq
      · exact h.queues item'
    · intro t' item'
      rw [requests_update]
      by_cases hi : item' = item
      · subst hi
        rw [if_pos rfl, holds_requestLock_iff hq]
        by_cases ht : t' = t
        · subst ht
          simp
        · simp [ht, h.mirrors]
      · rw [if_neg hi, ← h.mirrors]
        by_cases ht : t' = t
        · subst ht
          simp [hi]
        · simp [ht]
    · intro item' q hq'
      by_cases hi : item' = item
      · subst hi
        simp only [Function.update_self, Option.some.injEq] at hq'
        rw [← hq']
      · simp only [Function.update_of_ne hi] at hq'
        exact h.groupModes item' q hq'

theorem Ok.unlock (h : lm.Ok) {b : Bool} (hun : lm.unlock t item = (lm', b)) : lm'.Ok := by
  rcases unlock_cases hun with ⟨-, rfl⟩ | ⟨-, -, -, hrequests, hsets, hgroups⟩
  · exact h
  · refine ⟨?_, ?_, ?_⟩
    · intro item'
      rw [hrequests]
      split
      · exact (h.queues item).unlock t
      · exact h.queues item'
    · intro t' item'
      rw [hrequests, hsets]
      by_cases hi : item' = item
      · subst hi
        rw [if_pos rfl]
        by_cases ht : t' = t
        · subst ht
          simp [not_holds_unlock (h.queues item')]
        · simp [ht, h.mirrors, holds_unlock_of_ne ht]
      · rw [if_neg hi, ← h.mirrors]
        by_cases ht : t' = t
        · subst ht
          simp [hi]
        · simp [ht]
    · intro item' q hq
      rcases hgroups item' q hq with hq | hq
      · exact h.groupModes item' q hq
      · exact hq

end Calls

/-! ### Runs -/

section Runs

variable {lm lm' : LockManager} {e : Event}

theorem Initial.ok (h : lm.Initial) : lm.Ok where
  queues item := by simp [requests, h.lockTable item, queueOk_nil]
  mirrors t item := by simp [requests, h.lockTable item, h.lockSet t, Holds]
  groupModes item q hq := by
    rw [h.lockTable item] at hq
    cases hq

theorem Ok.of_eq (h : lm.Ok) (h₁ : lm'.lockTable = lm.lockTable) (h₂ : lm'.lockSet = lm.lockSet) : lm'.Ok := by
  have hreq : lm'.requests = lm.requests := by
    funext item
    simp only [requests, h₁]
  exact ⟨by rw [hreq]; exact h.queues, by rw [hreq, h₂]; exact h.mirrors, by rw [h₁]; exact h.groupModes⟩

theorem Ok.step (h : lm.Ok) (hs : Step lm e lm') : lm'.Ok := by
  cases hs with
  | call c hp => exact h.of_eq rfl rfl
  | granted hp hreq => exact (h.request hreq).of_eq rfl rfl
  | refused hp hreq => exact (h.request hreq).of_eq rfl rfl
  | unlocked hp hun => exact h.unlock hun
  | notHeld hp hun => exact h.unlock hun

/-- What a request covers it goes on to cover, unless the item is unlocked. -/
theorem Has.step {t : TxnId} {item : LockDataId} {m : LockMode} (hm : Has (lm.requests item) t m) (h : lm.Ok)
    (hs : Step lm e lm') (he : e ≠ .unlocked t item) : Has (lm'.requests item) t m := by
  cases hs with
  | call c hp => exact hm
  | @granted t₁ item₁ mode rest lm₁ hp hreq =>
    change Has (lm₁.requests item) t m
    obtain ⟨-, -, ⟨hout, -⟩ | ⟨-, -, rfl, -⟩ | ⟨-, -, queue, hq, rfl⟩⟩ := request_cases hreq
    · exact absurd rfl hout
    · rwa [requests_touch]
    · rw [requests_update]
      split
      · rename_i hi
        subst hi
        exact hm.requestLock (h.queues item) hq
      · exact hm
  | @refused t₁ item₁ mode rest lm₁ reason hp hreq =>
    change Has (lm₁.requests item) t m
    obtain ⟨-, -, ⟨-, rfl | rfl⟩ | ⟨hout, -⟩ | ⟨hout, -⟩⟩ := request_cases hreq
    · exact hm
    · rwa [requests_touch]
    · cases hout
    · cases hout
  | @unlocked t₁ item₁ _ hp hun =>
    rcases unlock_cases hun with ⟨hb, -⟩ | ⟨-, -, -, hrequests, -⟩
    · cases hb
    · rw [hrequests]
      split
      · rename_i hi
        subst hi
        exact hm.unlock_of_ne fun ht => he (by rw [ht])
      · exact hm
  | notHeld hp hun =>
    rcases unlock_cases hun with ⟨-, rfl⟩ | ⟨hb, -⟩
    · exact hm
    · cases hb

theorem has_of_granted {t : TxnId} {item : LockDataId} {mode : LockMode} (hs : Step lm (.granted t item mode) lm') :
    Has (lm'.requests item) t mode := by
  cases hs with
  | @granted _ _ _ rest lm₁ hp hreq =>
    change Has (lm₁.requests item) t mode
    obtain ⟨-, -, ⟨hout, -⟩ | ⟨-, -, rfl, hhas⟩ | ⟨-, -, queue, hq, rfl⟩⟩ := request_cases hreq
    · exact absurd rfl hout
    · rwa [requests_touch]
    · rw [requests_update, if_pos rfl]
      exact has_requestLock hq

theorem growing_of_granted {t : TxnId} {item : LockDataId} {mode : LockMode}
    (hs : Step lm (.granted t item mode) lm') : lm.state t = .growing := by
  cases hs with
  | granted hp hreq =>
    obtain ⟨-, -, ⟨hout, -⟩ | ⟨-, hgrow, -⟩ | ⟨-, hgrow, -⟩⟩ := request_cases hreq
    · exact absurd rfl hout
    · exact hgrow
    · exact hgrow

/-- No step makes a transaction grow. -/
theorem Step.not_growing {t : TxnId} (hs : Step lm e lm') (h : lm.state t ≠ .growing) : lm'.state t ≠ .growing := by
  cases hs with
  | call c hp => exact h
  | granted hp hreq => exact (congrFun (request_cases hreq).1 t).symm ▸ h
  | refused hp hreq => exact (congrFun (request_cases hreq).1 t).symm ▸ h
  | @unlocked t₁ _ _ hp hun =>
    rcases unlock_cases hun with ⟨hb, -⟩ | ⟨-, hstate, hother, -⟩
    · cases hb
    · by_cases ht : t = t₁
      · exact ht ▸ hstate
      · rwa [hother t ht]
  | notHeld hp hun =>
    rcases unlock_cases hun with ⟨-, rfl⟩ | ⟨hb, -⟩
    · exact h
    · cases hb

theorem not_growing_of_unlocked {t : TxnId} {item : LockDataId} (hs : Step lm (.unlocked t item) lm') :
    lm'.state t ≠ .growing := by
  cases hs with
  | unlocked hp hun =>
    rcases unlock_cases hun with ⟨hb, -⟩ | ⟨-, hstate, -⟩
    · cases hb
    · exact hstate

theorem requests_of_refused {t : TxnId} {item : LockDataId} {mode : LockMode} {reason : AbortReason}
    (hs : Step lm (.refused t item mode reason) lm') : lm'.requests = lm.requests := by
  cases hs with
  | @refused _ _ _ rest lm₁ _ hp hreq =>
    change lm₁.requests = lm.requests
    obtain ⟨-, -, ⟨-, rfl | rfl⟩ | ⟨hout, -⟩ | ⟨hout, -⟩⟩ := request_cases hreq
    · rfl
    · exact requests_touch _ _
    · cases hout
    · cases hout

variable {lm₀ : LockManager} {tr : List (LockManager × Event)}

theorem trace_covers (h₀ : lm₀.Initial) (htr : Trace Step lm₀ tr lm) :
    lm.Ok ∧ ∀ t item mode, GrantedIn tr t item mode → Has (lm.requests item) t mode := by
  induction htr with
  | nil =>
    refine ⟨h₀.ok, ?_⟩
    rintro t item mode ⟨A, lm, B, htr, -⟩
    simp at htr
  | @snoc tr a e b htr hs ih =>
    obtain ⟨hok, hcov⟩ := ih
    refine ⟨hok.step hs, ?_⟩
    rintro t item mode ⟨A, lm, B, hsplit, hB⟩
    rcases snoc_eq_append_cons.mp hsplit with ⟨rfl, hx, -⟩ | ⟨B', rfl, htr'⟩
    · obtain ⟨rfl, rfl⟩ := Prod.mk.inj hx
      exact has_of_granted hs
    · refine (hcov t item mode ⟨A, lm, B', htr', fun x hx => hB x (by simp [hx])⟩).step hok hs ?_
      exact hB (a, e) (by simp)

/-- After an unlock the transaction does not grow, and is granted nothing. -/
theorem trace_twoPhase (htr : Trace Step lm₀ tr lm) {A B : List (LockManager × Event)} {lm₁ : LockManager} {t : TxnId}
    {item : LockDataId} (hsplit : tr = A ++ (lm₁, .unlocked t item) :: B) :
    lm.state t ≠ .growing ∧ ∀ x ∈ B, ∀ item' mode, x.2 ≠ .granted t item' mode := by
  induction htr generalizing B with
  | nil => simp at hsplit
  | @snoc tr a e b htr hs ih =>
    rcases snoc_eq_append_cons.mp hsplit with ⟨rfl, hx, -⟩ | ⟨B', rfl, htr'⟩
    · obtain ⟨rfl, rfl⟩ := Prod.mk.inj hx
      exact ⟨not_growing_of_unlocked hs, by simp⟩
    · obtain ⟨hstate, hB⟩ := ih htr'
      refine ⟨hs.not_growing hstate, ?_⟩
      intro x hx item' mode he
      rcases List.mem_append.mp hx with hx | hx
      · exact hB x hx item' mode he
      · obtain rfl := List.mem_singleton.mp hx
        obtain rfl : e = _ := he
        exact hstate (growing_of_granted hs)

/-- **The lock manager is safe** in every state that any interleaving of calls reaches. -/
theorem lockManager_safe (h₀ : lm₀.Initial) (htr : Trace Step lm₀ tr lm) : Safe tr lm := by
  obtain ⟨hok, hcov⟩ := trace_covers h₀ htr
  refine ⟨?_, ?_, hcov, hok.mirrors, hok.groupModes,
    fun t item mode reason lm' hs => requests_of_refused hs, fun A lm₁ t item B hsplit => (trace_twoPhase htr hsplit).2⟩
  · intro item a b ha hb hne
    rcases (hok.queues item).mem ha hb with rfl | ⟨-, hc⟩
    · exact absurd rfl hne
    · exact hc
  · intro item
    exact List.pairwise_map.mpr ((hok.queues item).imp fun h => h.1)

end Runs

/-- A lock manager without locks, with all transactions growing. -/
def idle : LockManager := ⟨fun _ => none, fun _ => .growing, fun _ => ∅, fun _ => []⟩

/-- Transaction `1` locks a record, and its exclusive request on the table is refused once `2` has an intention lock. -/
theorem lockManager_safe_upgrade :
    ∃ tr lm, Trace Step idle tr lm ∧
      tr.map (·.2) = [.call 1 (.lockSharedOnRecord ⟨1, 0⟩ 7), .granted 1 (.table 7) .intentionShared,
        .call 2 (.lockIXOnTable 7), .granted 1 (.record 7 ⟨1, 0⟩) .shared, .granted 2 (.table 7) .intentionExclusive,
        .call 1 (.lockExclusiveOnTable 7), .refused 1 (.table 7) .exclusive .deadlockPrevention] ∧
      Safe tr lm := by
  have h₀ : idle.Initial := ⟨fun _ => rfl, fun _ => rfl, fun _ => rfl⟩
  have h₁ := Trace.nil.snoc (show Step idle (.call 1 _) _ from .call (.lockSharedOnRecord ⟨1, 0⟩ 7) rfl)
  have h₂ := h₁.snoc (Step.granted (t := 1) rfl rfl)
  have h₃ := h₂.snoc (Step.call (t := 2) (.lockIXOnTable 7) rfl)
  have h₄ := h₃.snoc (Step.granted (t := 1) rfl rfl)
  have h₅ := h₄.snoc (Step.granted (t := 2) rfl rfl)
  have h₆ := h₅.snoc (Step.call (t := 1) (.lockExclusiveOnTable 7) rfl)
  have h₇ := h₆.snoc (Step.refused (t := 1) rfl rfl)
  exact ⟨_, _, h₇, rfl, lockManager_safe h₀ h₇⟩

end LockManager

end Rmdb.Transaction
