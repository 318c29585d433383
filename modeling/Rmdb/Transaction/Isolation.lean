import Rmdb.Transaction.Serializable

/-!
# What transactions see of each other

Between a change of a table and any access by another transaction lies the release of the lock, and
the lock is released only when the transaction has been committed or all of its changes have been undone
(`rigorous`). So a transaction that has not ended has seen what the committed transactions leave, one
after the other, and its own changes, whether it commits later or not; and a table that nobody is changing
has the committed records at any time (`consistent_view`).

`request_lock` does not wait. A transaction can go on whatever the others hold, unless its statement
has come to an error (`progress`); a refused lock leads to `abort`, which does not stop either.
-/

namespace Rmdb.Transaction

open Lib Record Execution
open Function (update)

namespace Dbms

/-- The thread reads or changes the table. -/
def Action.Accesses : Action → String → Prop
  | look k', k => k' = k
  | write k' _, k => k' = k
  | undo w, k => w.tabName = k
  | _, _ => False

/-- The thread changes the table. -/
def Action.Changes : Action → String → Prop
  | write k' _, k => k' = k
  | undo w, k => w.tabName = k
  | _, _ => False

/-- The statement of the transaction has come to an error: it throws, it asks for the lock of a table that is not there, or a
row cannot be changed. -/
def Failed (s : Dbms) (t : TxnId) : Prop :=
  ∃ stmt p, s.phase t = .executing stmt p ∧
    match p with
    | .fail => True
    | .acquire k _ _ => s.tables k = none
    | .write k op _ => ∀ v, s.tables k = some v → op.apply v (s.writeSet t) = none
    | _ => False

section Isolation

variable {db : DbMeta} {D : DoubleOps} {std : StdSort} {s s' a b : Dbms} {t u : TxnId} {k : String} {e e' : Action}
  {tr : List (Dbms × TxnId × Action)}

theorem apply_insertK : (RowOp.insert [valueK 7]).apply tableK [] =
    some ((after (.insert [valueK 7]) ⟨tableK, []⟩).table, (after (.insert [valueK 7]) ⟨tableK, []⟩).writes) := by
  have hrun : Session.insert [valueK 7] ⟨tableK, []⟩ = (after (.insert [valueK 7]) ⟨tableK, []⟩, none) := rfl
  simp only [RowOp.apply, RowOp.exec, hrun]

theorem noLimit_insertK (v : ℤ) : DMLPlan.NoLimit (.insert "k" [valueK v]) := trivial

/-! ### Locks are kept -/

/-- What is accessed is locked. -/
theorem Step.held_of_accesses (hs : Sane s) (h : Step db D std s (t, e) s') (he : e.Accesses k) : k ∈ s.held t := by
  cases h with
  | look hphase hv => exact he ▸ (hs.guarded t _ _ hphase).1
  | write hphase hv hop => exact he ▸ heldX_subset s t (hs.guarded t _ _ hphase).1
  | @undo _ ws w v v' hphase hw hv hundo => exact he ▸ heldX_subset s t (hs.holds t w (by rw [hw]; simp))
  | _ => exact he.elim

/-- What is changed is locked exclusively. -/
theorem Step.heldX_of_changes (hs : Sane s) (h : Step db D std s (t, e) s') (he : e.Changes k) : k ∈ s.heldX t := by
  cases h with
  | write hphase hv hop => exact he ▸ (hs.guarded t _ _ hphase).1
  | @undo _ ws w v v' hphase hw hv hundo => exact he ▸ hs.holds t w (by rw [hw]; simp)
  | _ => exact he.elim

/-- A lock is kept until it is given back. -/
theorem Step.keeps_locks (hs : Sane s) (h : Step db D std s (u, e) s') (hne : (u, e) ≠ (t, .unlock k)) :
    (k ∈ s.held t → k ∈ s'.held t) ∧ (k ∈ s.heldX t → k ∈ s'.heldX t) := by
  by_cases hu : t = u
  · subst hu
    cases h with
    | @acquire _ stmt k' exclusive rest v queue hphase hv hq =>
      obtain ⟨hheld, hmono, -⟩ := held_acquire hq (hs.queues k') (f := update s.phase t (.executing stmt rest))
      exact ⟨fun hk => hheld.ge (Set.mem_insert_of_mem _ hk), fun hk => hmono hk⟩
    | unlock k' hleave =>
      have hkk : k ≠ k' := fun heq => hne (by rw [heq])
      constructor
      · intro hk
        simpa [held, hkk] using hk
      · intro hk
        simpa [heldX, hkk] using hk
    | _ => exact ⟨id, id⟩
  · have hother := h.unaffected hs hu
    rw [hother.held, hother.heldX]
    exact ⟨id, id⟩

/-- The run keeps a lock that it does not give back. -/
theorem keeps_locks {C : Bags} {B₀ : Bags} (h : InvAt db D std B₀ C s) (htr : Trace (Step db D std) s tr s')
    (hnot : ∀ x ∈ tr, x.2 ≠ (t, .unlock k)) :
    (k ∈ s.held t → k ∈ s'.held t) ∧ (k ∈ s.heldX t → k ∈ s'.heldX t) := by
  have hrun := htr.inv (I := fun a => (∃ C, InvAt db D std B₀ C a) ∧ (k ∈ s.held t → k ∈ a.held t) ∧ (k ∈ s.heldX t → k ∈ a.heldX t))
    (C := fun _ x => x ≠ (t, .unlock k)) hnot ⟨⟨C, h⟩, id, id⟩ fun {a e b} ⟨⟨C, ha⟩, hheld, hheldX⟩ hne hstep => by
      obtain ⟨hk, hkX⟩ := Step.keeps_locks ha.sane (e := e.2) (u := e.1) hstep hne
      exact ⟨ha.step hstep, fun hin => hk (hheld hin), fun hin => hkX (hheldX hin)⟩
  exact hrun.2

theorem Action.ne_unlock (he : e.Accesses k) : e ≠ .unlock k := by
  rintro rfl
  exact he

/-- **The schedule is rigorous.** Two transactions access a table one after the other, and at least one of them changes it.
Then the first one has given back the lock of the table in between, and at that time it had been committed, or all of its
changes had been undone. -/
theorem rigorous {P M S : List (Dbms × TxnId × Action)} (hinit : Init db s)
    (htr : Trace (Step db D std) s (P ++ (a, t, e) :: (M ++ (b, u, e') :: S)) s') (hne : u ≠ t) (he : e.Accesses k)
    (he' : e'.Accesses k) (hchanges : e.Changes k ∨ e'.Changes k) : ∃ c, (c, t, .unlock k) ∈ M ∧ c.Leaving t := by
  obtain ⟨hP, a₁, hstep, hrest⟩ := htr.of_append
  obtain ⟨hM, b₁, hstep', -⟩ := hrest.of_append
  obtain ⟨C, ha⟩ := hinit.invAt.trace hP
  obtain ⟨C₁, ha₁⟩ := ha.step hstep
  obtain ⟨C₂, hb⟩ := ha₁.trace hM
  by_cases hnot : ∀ x ∈ M, x.2 ≠ (t, .unlock k)
  · -- the first transaction still has its lock
    have hfirst := Step.keeps_locks (t := t) (k := k) ha.sane hstep fun heq => Action.ne_unlock he (Prod.mk.inj heq).2
    have hkept := keeps_locks ha₁ hM hnot
    rcases hchanges with hc | hc
    · have hx : k ∈ b.heldX t := hkept.2 (hfirst.2 (hstep.heldX_of_changes ha.sane hc))
      exact absurd (hb.sane.alone hx (hstep'.held_of_accesses hb.sane he')) hne
    · have hx : k ∈ b.heldX u := hstep'.heldX_of_changes hb.sane hc
      exact absurd (hb.sane.alone hx (hkept.1 (hfirst.1 (hstep.held_of_accesses ha.sane he)))) hne.symm
  · simp only [not_forall, not_not] at hnot
    obtain ⟨⟨c, x⟩, hc, rfl⟩ := hnot
    obtain ⟨M₁, M₂, rfl⟩ := List.append_of_mem hc
    obtain ⟨-, c', hunlock, -⟩ := hM.of_append
    cases hunlock with
    | unlock _ hleave => exact ⟨c, hc, hleave⟩

/-- A transaction inserts a row and commits; another one reads the table. -/
theorem rigorous_insert : ∃ (P M : List (Dbms × TxnId × Action)) (a b s' : Dbms),
    Trace (Step dbK unitOps mergeSort) serverK
      (P ++ (a, 1, .write "k" (.insert [valueK 7])) :: (M ++ (b, 2, .look "k") :: [])) s' ∧
    ∃ c, (c, 1, .unlock "k") ∈ M ∧ c.Leaving 1 := by
  have h₀ : Trace (Step dbK unitOps mergeSort) serverK [] serverK := .nil
  have h₁ := h₀.snoc (e := (1, .beginTxn)) (.beginTxn rfl)
  have h₂ := h₁.snoc (e := (2, .beginTxn)) (.beginTxn rfl)
  have h₃ := h₂.snoc (e := (1, .start (.insert "k" [valueK 7]))) (.start rfl (noLimit_insertK 7))
  have h₄ := h₃.snoc (e := (1, .acquire "k" true)) (.acquire rfl rfl rfl)
  have h₅ := h₄.snoc (e := (1, .write "k" (.insert [valueK 7]))) (.write rfl rfl apply_insertK)
  have h₆ := h₅.snoc (e := (1, .finish (.insert "k" [valueK 7]) [])) (.finish rfl)
  have h₇ := h₆.snoc (e := (1, .commit)) (.commit rfl)
  have h₈ := h₇.snoc (e := (1, .unlock "k")) (.unlock "k" (.inl rfl))
  have h₉ := h₈.snoc (e := (2, .start (.delete .seqScan "k" [] [])))
    (.start rfl (show DMLPlan.NoLimit (.delete .seqScan "k" [] []) from trivial))
  have h₁₀ := h₉.snoc (e := (2, .acquire "k" false)) (.acquire rfl rfl rfl)
  have h₁₁ := h₁₀.snoc (e := (2, .look "k")) (.look rfl rfl)
  exact ⟨[_, _, _, _], [_, _, _, _, _], _, _, _, h₁₁,
    rigorous (P := [_, _, _, _]) (M := [_, _, _, _, _]) (S := []) serverK_init h₁₁ (by decide) rfl rfl (.inl rfl)⟩

/-! ### What is seen -/

/-- **A consistent view**, at any time of any run. A table that nobody has changes in has the records that the committed
transactions leave one after the other. A transaction that has not ended has seen what it sees if it begins after
these, and between two statements the tables that it has locked are as it has made them. -/
theorem consistent_view (hinit : Init db s) (hrun : Trace (Step db D std) s tr s') :
    ∃ C, MeansAll db D std s.bags s'.work C ∧
      (∀ k, (∀ t, writesTo k (s'.writeSet t) = []) → s'.bags k = C k) ∧
      ∀ t, s'.phase t = .running ∨ (∃ stmt p, s'.phase t = .executing stmt p) →
        ∃ B, MeansAll db D std C (s'.finished t) B ∧ (s'.phase t = .running → ∀ k ∈ s'.held t, s'.bags k = B k) := by
  obtain ⟨C, h⟩ := hinit.invAt.trace hrun
  refine ⟨C, h.serial, ?_, ?_⟩
  · intro k hnone
    cases hv : s'.tables k with
    | none => rw [h.absent k hv, bags, hv]
    | some v =>
      obtain ⟨t, halone⟩ : ∃ t, ∀ u, k ∈ s'.heldX u → u = t := h.sane.exists_alone k
      exact (stores_bags hv).unique ((hnone t ▸ (h.kept k v hv).back t halone).stores_nil)
  · intro t hphase
    have hlive := h.live t
    rcases hphase with hphase | ⟨stmt, p, hphase⟩
    · simp only [Live, hphase] at hlive
      obtain ⟨B, hpending, hstand⟩ := hlive
      refine ⟨B, hpending.means, ?_⟩
      intro _ k hk
      obtain ⟨v, hv, hst⟩ := hstand k hk
      exact (stores_bags hv).unique hst.stores
    · simp only [Live, hphase] at hlive
      obtain ⟨B, hpending, -⟩ := hlive
      refine ⟨B, hpending.means, ?_⟩
      intro hrunning
      rw [hphase] at hrunning
      cases hrunning

/-- A transaction has inserted a row and has not committed yet. -/
theorem consistent_view_insert : ∃ s' : Dbms, s'.work = [] ∧ s'.finished 1 = [(DMLPlan.insert "k" [valueK 7], [])] ∧
    ∃ C, MeansAll dbK unitOps mergeSort serverK.bags s'.work C ∧
      (∀ k, (∀ t, writesTo k (s'.writeSet t) = []) → s'.bags k = C k) ∧
      ∀ t, s'.phase t = .running ∨ (∃ stmt p, s'.phase t = .executing stmt p) →
        ∃ B, MeansAll dbK unitOps mergeSort C (s'.finished t) B ∧ (s'.phase t = .running → ∀ k ∈ s'.held t, s'.bags k = B k) := by
  have h₀ : Trace (Step dbK unitOps mergeSort) serverK [] serverK := .nil
  have h₁ := h₀.snoc (e := (1, .beginTxn)) (.beginTxn rfl)
  have h₂ := h₁.snoc (e := (1, .start (.insert "k" [valueK 7]))) (.start rfl (noLimit_insertK 7))
  have h₃ := h₂.snoc (e := (1, .acquire "k" true)) (.acquire rfl rfl rfl)
  have h₄ := h₃.snoc (e := (1, .write "k" (.insert [valueK 7]))) (.write rfl rfl apply_insertK)
  have h₅ := h₄.snoc (e := (1, .finish (.insert "k" [valueK 7]) [])) (.finish rfl)
  exact ⟨_, rfl, rfl, consistent_view serverK_init h₅⟩

/-! ### Nobody waits -/

/-- **No transaction waits for another**: one that has begun and has not ended can go on at any time of any run, whatever the
others hold, unless its statement has come to an error. -/
theorem progress (hinit : Init db s) (hrun : Trace (Step db D std) s tr s') (hidle : s'.phase t ≠ .idle)
    (hdone : s'.phase t ≠ .done) (hok : ¬ s'.Failed t) : ∃ e s'', Step db D std s' (t, e) s'' := by
  obtain ⟨C, h⟩ := hinit.invAt.trace hrun
  have hthere : ∀ k ∈ s'.held t, ∃ v, s'.tables k = some v := fun k hk => Option.isSome_iff_exists.mp (h.sane.there t k hk)
  have hleaving : s'.Leaving t → ∃ e s'', Step db D std s' (t, e) s'' := fun hleave => by
    by_cases hk : ∃ k, Holds (s'.locks k) t
    · obtain ⟨k, -⟩ := hk
      exact ⟨_, _, .unlock k hleave⟩
    · exact ⟨_, _, .leave hleave fun k hk' => hk ⟨k, hk'⟩⟩
  cases hphase : s'.phase t with
  | idle => exact absurd hphase hidle
  | done => exact absurd hphase hdone
  | running => exact ⟨_, _, .commit hphase⟩
  | committing => exact hleaving (.inl hphase)
  | aborting =>
    rcases List.eq_nil_or_concat (s'.writeSet t) with hw | ⟨ws, w, hw⟩
    · exact hleaving (.inr ⟨hphase, hw⟩)
    · obtain ⟨s'', hstep⟩ := undo_progress hinit hrun hphase (hw.trans (List.concat_eq_append ..))
      exact ⟨_, s'', hstep⟩
  | executing stmt p =>
    have hguarded := h.sane.guarded t stmt p hphase
    cases p with
    | ret result => exact ⟨_, _, .finish hphase⟩
    | fail => exact absurd ⟨stmt, .fail, hphase, trivial⟩ hok
    | look k rest =>
      obtain ⟨v, hv⟩ := hthere k hguarded.1
      exact ⟨_, _, .look hphase hv⟩
    | acquire k exclusive rest =>
      cases hv : s'.tables k with
      | none => exact absurd ⟨stmt, _, hphase, hv⟩ hok
      | some v =>
        cases hq : requestLock (s'.locks k) t (lockMode exclusive) with
        | none => exact ⟨_, _, .refuse hphase hv hq⟩
        | some queue => exact ⟨_, _, .acquire hphase hv hq⟩
    | write k op rest =>
      obtain ⟨v, hv⟩ := hthere k (heldX_subset s' t hguarded.1)
      cases hop : op.apply v (s'.writeSet t) with
      | none =>
        refine absurd ⟨stmt, _, hphase, ?_⟩ hok
        intro v' hv'
        obtain rfl := Option.some.inj (hv.symm.trans hv')
        exact hop
      | some res =>
        obtain ⟨v', writes⟩ := res
        exact ⟨_, _, .write hphase hv hop⟩

/-- A transaction holds the table exclusively, and another one that asks for it goes on. -/
theorem progress_locked : ∃ s' : Dbms, "k" ∈ s'.heldX 1 ∧
    (∃ rest, s'.phase 2 = .executing (.insert "k" [valueK 8]) (.acquire "k" true rest)) ∧
    ∃ e s'', Step dbK unitOps mergeSort s' (2, e) s'' := by
  have h₀ : Trace (Step dbK unitOps mergeSort) serverK [] serverK := .nil
  have h₁ := h₀.snoc (e := (1, .beginTxn)) (.beginTxn rfl)
  have h₂ := h₁.snoc (e := (2, .beginTxn)) (.beginTxn rfl)
  have h₃ := h₂.snoc (e := (1, .start (.insert "k" [valueK 7]))) (.start rfl (noLimit_insertK 7))
  have h₄ := h₃.snoc (e := (1, .acquire "k" true)) (.acquire rfl rfl rfl)
  have h₅ := h₄.snoc (e := (2, .start (.insert "k" [valueK 8]))) (.start rfl (noLimit_insertK 8))
  refine ⟨_, List.mem_cons_self, ⟨_, rfl⟩, progress serverK_init h₅ (fun hp => by cases hp) (fun hp => by cases hp) ?_⟩
  rintro ⟨stmt, p, hp, hfail⟩
  obtain ⟨rfl, rfl⟩ := Phase.executing.inj hp
  cases hfail

end Isolation

end Dbms

end Rmdb.Transaction
