import Rmdb.Common.Defs
import Mathlib.Data.List.Pairwise
import Mathlib.Data.List.Nodup

/-!
# The lock manager

`LockManager`: one queue of requests for every data item. A request that conflicts with
one that is granted to another transaction throws, so that every request in a queue is
granted; `granted_` is not modelled. A transaction that asks again has its mode replaced
by the combination of the two.

In every queue that the lock manager builds, the requests are of different transactions
and of compatible modes (`QueueOk`); an exclusive lock is therefore the only one.
-/

namespace Rmdb.Transaction

/-- `LockMode`. -/
inductive LockMode where
  /-- `SHARED`. -/
  | shared
  /-- `EXLUCSIVE`. -/
  | exclusive
  /-- `INTENTION_SHARED`. -/
  | intentionShared
  /-- `INTENTION_EXCLUSIVE`. -/
  | intentionExclusive
  /-- `S_IX`. -/
  | sIX
deriving DecidableEq

/-- `compatible`. -/
def compatible (requested granted : LockMode) : Bool :=
  if requested = .intentionShared then granted ≠ .exclusive
  else if requested = .intentionExclusive then granted = .intentionShared || granted = .intentionExclusive
  else if requested = .shared then granted = .intentionShared || granted = .shared
  else if requested = .sIX then granted = .intentionShared
  else false

/-- `subsumes`. -/
def subsumes (held requested : LockMode) : Bool :=
  if held = requested || held = .exclusive then true
  else if held = .sIX then requested ≠ .exclusive
  else false

/-- `combine`. -/
def combine (held requested : LockMode) : LockMode :=
  if subsumes held requested then held
  else if subsumes requested held then requested
  else if (held = .shared && requested = .intentionExclusive) || (held = .intentionExclusive && requested = .shared) then
    .sIX
  else if (held = .intentionShared && requested = .intentionExclusive) ||
      (held = .intentionExclusive && requested = .intentionShared) then .intentionExclusive
  else if held = .intentionShared then requested
  else if requested = .intentionShared then held
  else .exclusive

/-- `LockRequest`. -/
structure LockRequest where
  /-- `txn_id_`. -/
  txnId : TxnId
  /-- `lock_mode_`. -/
  lockMode : LockMode
deriving DecidableEq

/-- `request_queue_`. -/
abbrev Queue := List LockRequest

/-- The mode in which a transaction asks, with the mode it holds already. -/
def target (queue : Queue) (t : TxnId) (mode : LockMode) : LockMode :=
  match queue.find? fun r => r.txnId = t with
  | some own => combine own.lockMode mode
  | none => mode

/-- `request_lock` by a growing transaction; `none` is `TransactionAbortException(DEADLOCK_PREVENTION)`. -/
def requestLock (queue : Queue) (t : TxnId) (mode : LockMode) : Option Queue :=
  if (queue.find? fun r => r.txnId = t).any fun own => subsumes own.lockMode mode then some queue
  else if queue.all fun r => r.txnId = t || compatible (target queue t mode) r.lockMode then
    if queue.any fun r => r.txnId = t then
      some (queue.map fun r => if r.txnId = t then { r with lockMode := target queue t mode } else r)
    else some (queue ++ [⟨t, target queue t mode⟩])
  else none

/-- `unlock`. -/
def unlock (queue : Queue) (t : TxnId) : Queue := queue.eraseP fun r => r.txnId = t

/-- The transaction holds an exclusive lock. -/
def HoldsX (queue : Queue) (t : TxnId) : Prop := ⟨t, .exclusive⟩ ∈ queue

/-- The transaction has a request in the queue. -/
def Holds (queue : Queue) (t : TxnId) : Prop := ∃ r ∈ queue, r.txnId = t

/-- Two requests are of different transactions, and compatible. -/
def Apart (a b : LockRequest) : Prop := a.txnId ≠ b.txnId ∧ compatible a.lockMode b.lockMode

/-- The requests are of different transactions, and compatible. -/
def QueueOk (queue : Queue) : Prop := queue.Pairwise Apart

theorem compatible_comm (a b : LockMode) : compatible a b = compatible b a := by
  cases a <;> cases b <;> rfl

theorem not_compatible_exclusive (a : LockMode) : compatible .exclusive a = false := by
  cases a <;> rfl

instance : Std.Symm Apart := ⟨fun _ _ h => ⟨h.1.symm, by rw [compatible_comm]; exact h.2⟩⟩

theorem combine_exclusive (a : LockMode) : combine a .exclusive = .exclusive := by
  cases a <;> rfl

section Queues

variable {queue queue' : Queue} {t t' : TxnId} {mode : LockMode}

theorem queueOk_nil : QueueOk [] := List.Pairwise.nil

theorem HoldsX.holds (h : HoldsX queue t) : Holds queue t := ⟨_, h, rfl⟩

/-- Two requests in a queue are of one transaction, or compatible. -/
theorem QueueOk.mem (h : QueueOk queue) {a b : LockRequest} (ha : a ∈ queue) (hb : b ∈ queue) :
    a = b ∨ Apart a b := by
  by_cases hab : a = b
  · exact Or.inl hab
  · exact Or.inr (h.forall ha hb hab)

/-- **An exclusive lock is the only one.** -/
theorem HoldsX.unique (h : QueueOk queue) (hx : HoldsX queue t) (ht' : Holds queue t') : t' = t := by
  obtain ⟨r, hr, rfl⟩ := ht'
  rcases h.mem hx hr with rfl | ⟨-, hc⟩
  · rfl
  · rw [not_compatible_exclusive] at hc
    cases hc

/-- What `request_lock` does to a queue. -/
theorem requestLock_cases (h : requestLock queue t mode = some queue') :
    (queue' = queue ∧ ∃ own ∈ queue, own.txnId = t ∧ subsumes own.lockMode mode) ∨
    ((∀ r ∈ queue, r.txnId = t ∨ compatible (target queue t mode) r.lockMode) ∧
      ((Holds queue t ∧ queue' = queue.map fun r => if r.txnId = t then { r with lockMode := target queue t mode } else r) ∨
        (¬ Holds queue t ∧ queue' = queue ++ [⟨t, target queue t mode⟩]))) := by
  unfold requestLock at h
  split at h
  · rename_i hown
    rw [Option.any_eq_true] at hown
    obtain ⟨own, hfind, hsub⟩ := hown
    refine Or.inl ⟨(Option.some.inj h).symm, own, List.mem_of_find?_eq_some hfind, ?_, hsub⟩
    simpa using List.find?_some hfind
  · split at h
    · rename_i hall
      refine Or.inr ⟨fun r hr => by simpa using List.all_eq_true.mp hall r hr, ?_⟩
      split at h
      · rename_i hany
        refine Or.inl ⟨?_, (Option.some.inj h).symm⟩
        obtain ⟨r, hr, hrt⟩ := List.any_eq_true.mp hany
        exact ⟨r, hr, by simpa using hrt⟩
      · rename_i hany
        refine Or.inr ⟨?_, (Option.some.inj h).symm⟩
        rintro ⟨r, hr, hrt⟩
        exact hany (List.any_eq_true.mpr ⟨r, hr, by simpa using hrt⟩)
    · cases h

theorem QueueOk.requestLock (hq : QueueOk queue) (h : requestLock queue t mode = some queue') : QueueOk queue' := by
  rcases requestLock_cases h with ⟨rfl, -⟩ | ⟨hall, ⟨-, rfl⟩ | ⟨hnone, rfl⟩⟩
  · exact hq
  · rw [QueueOk, List.pairwise_map]
    refine List.Pairwise.imp_of_mem (fun {a b} ha hb hab => ?_) hq
    by_cases hat : a.txnId = t
    · have hbt : b.txnId ≠ t := fun hbt => hab.1 (hat.trans hbt.symm)
      rw [if_pos hat, if_neg hbt]
      exact ⟨hab.1, (hall b hb).resolve_left hbt⟩
    · rw [if_neg hat]
      by_cases hbt : b.txnId = t
      · rw [if_pos hbt]
        exact ⟨hab.1, by rw [compatible_comm]; exact (hall a ha).resolve_left hat⟩
      · rw [if_neg hbt]
        exact hab
  · rw [QueueOk, List.pairwise_append]
    refine ⟨hq, List.pairwise_singleton _ _, ?_⟩
    intro a ha b hb
    obtain rfl := List.mem_singleton.mp hb
    have hat : a.txnId ≠ t := fun hat => hnone ⟨a, ha, hat⟩
    exact ⟨hat, by rw [compatible_comm]; exact (hall a ha).resolve_left hat⟩

theorem QueueOk.unlock (hq : QueueOk queue) (t : TxnId) : QueueOk (unlock queue t) :=
  List.Pairwise.sublist List.eraseP_sublist hq

/-- A transaction that is granted an exclusive lock holds it. -/
theorem holdsX_requestLock (h : requestLock queue t .exclusive = some queue') : HoldsX queue' t := by
  rcases requestLock_cases h with ⟨rfl, own, hown, rfl, hsub⟩ | ⟨-, ⟨⟨r, hr, rfl⟩, rfl⟩ | ⟨hnone, rfl⟩⟩
  · obtain ⟨i, m⟩ := own
    cases m <;> first | exact hown | cases hsub
  · have htarget : target queue r.txnId .exclusive = .exclusive := by
      unfold target
      split
      · exact combine_exclusive _
      · rfl
    refine List.mem_map.mpr ⟨r, hr, ?_⟩
    rw [if_pos rfl, htarget]
  · have htarget : target queue t .exclusive = .exclusive := by
      unfold target
      split
      · exact combine_exclusive _
      · rfl
    rw [HoldsX, htarget]
    exact List.mem_append_right _ List.mem_cons_self

/-- A request changes the lock of the transaction that makes it only. -/
theorem holds_requestLock (h : requestLock queue t mode = some queue') (hne : t' ≠ t) :
    Holds queue' t' ↔ Holds queue t' := by
  rcases requestLock_cases h with ⟨rfl, -⟩ | ⟨-, ⟨-, rfl⟩ | ⟨-, rfl⟩⟩
  · rfl
  · constructor
    · rintro ⟨r, hr, rfl⟩
      obtain ⟨r₀, hr₀, rfl⟩ := List.mem_map.mp hr
      refine ⟨r₀, hr₀, ?_⟩
      split <;> rfl
    · rintro ⟨r, hr, rfl⟩
      refine ⟨r, List.mem_map.mpr ⟨r, hr, if_neg hne⟩, rfl⟩
  · constructor
    · rintro ⟨r, hr, rfl⟩
      rcases List.mem_append.mp hr with hr | hr
      · exact ⟨r, hr, rfl⟩
      · exact absurd (congrArg LockRequest.txnId (List.mem_singleton.mp hr)) hne
    · rintro ⟨r, hr, rfl⟩
      exact ⟨r, List.mem_append_left _ hr, rfl⟩

/-- A transaction that is granted a lock holds one. -/
theorem holds_of_requestLock (h : requestLock queue t mode = some queue') : Holds queue' t := by
  rcases requestLock_cases h with ⟨rfl, own, hown, hid, -⟩ | ⟨-, ⟨⟨r, hr, hid⟩, rfl⟩ | ⟨-, rfl⟩⟩
  · exact ⟨own, hown, hid⟩
  · refine ⟨_, List.mem_map.mpr ⟨r, hr, rfl⟩, ?_⟩
    rw [if_pos hid]
    exact hid
  · exact ⟨_, List.mem_append_right _ List.mem_cons_self, rfl⟩

/-- A request leaves the exclusive locks of others. -/
theorem holdsX_requestLock_of_ne (h : requestLock queue t mode = some queue') (hne : t' ≠ t) :
    HoldsX queue' t' ↔ HoldsX queue t' := by
  rcases requestLock_cases h with ⟨rfl, -⟩ | ⟨-, ⟨-, rfl⟩ | ⟨-, rfl⟩⟩
  · rfl
  · constructor
    · intro hx
      obtain ⟨r, hr, heq⟩ := List.mem_map.mp hx
      split at heq
      · next hid => exact absurd ((congrArg LockRequest.txnId heq).symm.trans hid) hne
      · rw [HoldsX, ← heq]
        exact hr
    · exact fun hx => List.mem_map.mpr ⟨_, hx, if_neg hne⟩
  · constructor
    · intro hx
      rcases List.mem_append.mp hx with hx | hx
      · exact hx
      · exact absurd (congrArg LockRequest.txnId (List.mem_singleton.mp hx)) hne
    · exact fun hx => List.mem_append_left _ hx

/-- A transaction that asks again keeps an exclusive lock, and so does every other. -/
theorem HoldsX.requestLock (hx : HoldsX queue t') (h : requestLock queue t mode = some queue') (hq : QueueOk queue) :
    HoldsX queue' t' := by
  rcases requestLock_cases h with ⟨rfl, -⟩ | ⟨hall, ⟨hold, rfl⟩ | ⟨-, rfl⟩⟩
  · exact hx
  · obtain rfl := hx.unique hq hold
    refine List.mem_map.mpr ⟨_, hx, ?_⟩
    have hfind : (queue.find? fun r => r.txnId = t) = some ⟨t, .exclusive⟩ := by
      obtain ⟨r, hr, hrt⟩ := hold
      obtain ⟨own, hown⟩ : ∃ own, (queue.find? fun r => r.txnId = t) = some own :=
        Option.isSome_iff_exists.mp (List.find?_isSome.mpr ⟨r, hr, by simpa using hrt⟩)
      have howt : own.txnId = t := by simpa using List.find?_some hown
      rcases hq.mem hx (List.mem_of_find?_eq_some hown) with heq | ⟨hne, -⟩
      · rw [hown, ← heq]
      · exact absurd howt.symm hne
    have hcombine : combine .exclusive mode = .exclusive := by
      cases mode <;> rfl
    simp only [target, hfind, if_true, hcombine]
  · exact List.mem_append_left _ hx

theorem holds_unlock_of_ne (hne : t' ≠ t) : Holds (unlock queue t) t' ↔ Holds queue t' := by
  constructor
  · rintro ⟨r, hr, rfl⟩
    exact ⟨r, List.mem_of_mem_eraseP hr, rfl⟩
  · rintro ⟨r, hr, rfl⟩
    exact ⟨r, (List.mem_eraseP_of_neg (by simpa using hne)).mpr hr, rfl⟩

theorem holdsX_unlock_of_ne (hne : t' ≠ t) : HoldsX (unlock queue t) t' ↔ HoldsX queue t' :=
  List.mem_eraseP_of_neg (by simpa using hne)

/-- A transaction that unlocks holds nothing any more. -/
theorem not_holds_unlock (hq : QueueOk queue) : ¬ Holds (unlock queue t) t := by
  rintro ⟨r, hr, hrt⟩
  unfold unlock at hr
  induction queue with
  | nil => cases hr
  | cons a queue ih =>
    obtain ⟨ha, hq'⟩ := List.pairwise_cons.mp hq
    by_cases hat : a.txnId = t
    · rw [List.eraseP_cons_of_pos (by simpa using hat)] at hr
      exact (ha r hr).1 (hat.trans hrt.symm)
    · rw [List.eraseP_cons_of_neg (by simpa using hat)] at hr
      rcases List.mem_cons.mp hr with rfl | hr
      · exact hat hrt
      · exact ih hq' hr

end Queues

end Rmdb.Transaction
