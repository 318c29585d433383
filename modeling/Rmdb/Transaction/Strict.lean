import Rmdb.Transaction.System

/-!
# The order of the log

Recovery takes for granted that two transactions that change a table do so one after the
other in the log: the first one's `COMMIT` or `ABORT` record comes before the second one's
first record for the table (`Strict`). The table's exclusive lock orders the changes
themselves. `commit` writes its record before it unlocks, so a committed transaction keeps
the order; `abort` unlocks first, and between the two another transaction can come in.

`strict_iff`: the log is strict exactly if nobody does.
-/

namespace Rmdb.Transaction

open Lib Record Recovery

/-- The `COMMIT` or `ABORT` record of `t₁` precedes the first record of `t₂` for the table. -/
def EndsBefore (log : List LogRecord) (t₁ t₂ : TxnId) (tab : String) : Prop :=
  ∃ A B, log = A ++ B ∧ Ended A t₁ ∧ ¬ Writes A t₂ tab

/-- The transactions that write a table are ordered in the log, by their last records. -/
def Strict (log : List LogRecord) : Prop :=
  ∀ tab t₁ t₂, t₁ ≠ t₂ → Writes log t₁ tab → Writes log t₂ tab → EndsBefore log t₁ t₂ tab ∨ EndsBefore log t₂ t₁ tab

/-- The transaction is in `abort`, between the release of the table's lock and the `ABORT` record. -/
def Released (s : Sys) (t : TxnId) (tab : String) : Prop := s.pc t = .aborting ∧ ¬ Holds (s.locks tab) t

/-- No executor appends a log record for a table while another transaction that has written the table is between its
release of the lock and its `ABORT` record. -/
def NoOverlap (s : Sys) (e : Event) : Prop :=
  ∀ t tab, Appends s e t tab → ∀ t', t' ≠ t → Writes s.log t' tab → ¬ Released s t' tab

section Steps

variable {s s' : Sys} {e : Event} {t t' : TxnId} {tab : String}

theorem EndsBefore.append {log : List LogRecord} {t₁ t₂ : TxnId} (h : EndsBefore log t₁ t₂ tab) (B : List LogRecord) :
    EndsBefore (log ++ B) t₁ t₂ tab := by
  obtain ⟨A, C, rfl, h₁, h₂⟩ := h
  exact ⟨A, C ++ B, List.append_assoc .., h₁, h₂⟩

theorem Appends.not_ended (h : Appends s e t tab) (hs : Sane s) : ¬ Ended s.log t := by
  rw [hs.ended]
  cases h with
  | insertLog hpc => simp [hpc]
  | deleteLog hpc hx => simp [hpc]
  | updateLog hpc hx => simp [hpc]

/-- A transaction that has written a table on which another one appends has ended, or is `Released`. -/
theorem Appends.others (h : Appends s e t tab) (hs : Sane s) (hne : t' ≠ t) (hw : Writes s.log t' tab) :
    Ended s.log t' ∨ Released s t' tab := by
  have hx := h.holdsX hs
  have hnot : ¬ Holds (s.locks tab) t' := fun hold => hne (hx.unique (hs.queues tab) hold)
  rcases hs.writes t' tab hw with hx' | hended | ⟨hpc, -⟩
  · exact absurd hx'.holds hnot
  · exact Or.inl hended
  · exact Or.inr ⟨hpc, hnot⟩

/-- A step without overlap keeps the log strict. -/
theorem Strict.step (hs : Sane s) (hstrict : Strict s.log) (hno : NoOverlap s e) (h : Step s e s') : Strict s'.log := by
  rcases h.log_cases with ⟨t, tab, r, happ, hlog, honly⟩ | ⟨-, B, hlog, hnone⟩
  · -- `t` appends: whoever else has written the table has ended
    have key : ∀ t₂, t₂ ≠ t → Writes s.log t₂ tab → EndsBefore (s.log ++ [r]) t₂ t tab := by
      intro t₂ hne hw
      have hended := (happ.others hs hne hw).resolve_right (hno t tab happ t₂ hne hw)
      by_cases hwt : Writes s.log t tab
      · rcases hstrict tab t₂ t hne hw hwt with hb | ⟨A, C, hAC, hA, -⟩
        · exact hb.append _
        · refine absurd ?_ (happ.not_ended hs)
          rw [hAC, ended_append]
          exact Or.inl hA
      · exact ⟨s.log, [r], rfl, hended, hwt⟩
    intro tab' t₁ t₂ hne h₁ h₂
    rw [hlog] at h₁ h₂ ⊢
    rcases writes_append.mp h₁ with h₁ | h₁
    · rcases writes_append.mp h₂ with h₂ | h₂
      · exact (hstrict tab' t₁ t₂ hne h₁ h₂).imp (fun hb => hb.append _) fun hb => hb.append _
      · obtain ⟨rfl, rfl⟩ := (honly _ _).mp h₂
        exact Or.inl (key t₁ hne h₁)
    · obtain ⟨rfl, rfl⟩ := (honly _ _).mp h₁
      rcases writes_append.mp h₂ with h₂ | h₂
      · exact Or.inr (key t₂ hne.symm h₂)
      · exact absurd ((honly _ _).mp h₂).1 hne.symm
  · intro tab' t₁ t₂ hne h₁ h₂
    rw [hlog] at h₁ h₂ ⊢
    have h₁' := (writes_append.mp h₁).resolve_right (hnone _ _)
    have h₂' := (writes_append.mp h₂).resolve_right (hnone _ _)
    exact (hstrict tab' t₁ t₂ hne h₁' h₂').imp (fun hb => hb.append _) fun hb => hb.append _

theorem run_log_prefix {tr : List (Sys × Event)} (htr : Trace Step s tr s') : s.log <+: s'.log :=
  htr.inv' (I := fun a => s.log <+: a.log) (List.prefix_refl _) fun ha hs => ha.trans hs.log_prefix

end Steps

theorem strict_nil : Strict [] := by
  rintro tab t₁ t₂ - ⟨e, he, -⟩
  cases he

/-- A part of the log with the end of a transaction that had not ended before `r` was appended has `r`. -/
theorem prefix_of_ended {log log' A : List LogRecord} {r : LogRecord} {t : TxnId} (hr : log ++ [r] <+: log')
    (hA : A <+: log') (hnot : ¬ Ended log t) (hended : Ended A t) : log ++ [r] <+: A := by
  rcases List.prefix_or_prefix_of_prefix hA hr with h | h
  · rcases List.prefix_concat_iff.mp h with rfl | ⟨C, rfl⟩
    · exact List.prefix_refl _
    · exact absurd (ended_append.mpr (Or.inl hended)) hnot
  · exact h

theorem Writes.mono {A B : List LogRecord} {t : TxnId} {tab : String} (h : Writes A t tab) (hAB : A <+: B) :
    Writes B t tab := by
  obtain ⟨C, rfl⟩ := hAB
  exact writes_append.mpr (Or.inl h)

/-- An overlap shows in every log that comes after it. -/
theorem not_strict_of_overlap {a b s : Sys} {e : Event} {tr : List (Sys × Event)} (hs : Sane a) (h : Step a e b)
    (hover : ¬ NoOverlap a e) (htr : Trace Step b tr s) : ¬ Strict s.log := by
  simp only [NoOverlap, not_forall, not_not] at hover
  obtain ⟨t, tab, happ, t', hne, hw, hrel⟩ := hover
  have hnot' : ¬ Ended a.log t' := by
    rw [hs.ended, hrel.1]
    simp
  rcases h.log_cases with ⟨t₀, tab₀, r, happ₀, hlog, honly⟩ | ⟨hnone, -⟩
  · obtain ⟨rfl, rfl⟩ : t₀ = t ∧ tab₀ = tab := by
      cases happ <;> cases happ₀ <;> simp_all
    have hr : a.log ++ [r] <+: s.log := hlog ▸ run_log_prefix htr
    have hwr : Writes (a.log ++ [r]) t₀ tab₀ := writes_append.mpr (Or.inr ((honly _ _).mpr ⟨rfl, rfl⟩))
    have hwr' : Writes (a.log ++ [r]) t' tab₀ := writes_append.mpr (Or.inl hw)
    intro hstrict
    rcases hstrict tab₀ t' t₀ hne (hwr'.mono hr) (hwr.mono hr) with ⟨A, B, hAB, hended, hnw⟩ | ⟨A, B, hAB, hended, hnw⟩
    · exact hnw (hwr.mono (prefix_of_ended hr ⟨B, hAB.symm⟩ hnot' hended))
    · exact hnw (hwr'.mono (prefix_of_ended hr ⟨B, hAB.symm⟩ (happ₀.not_ended hs) hended))
  · exact absurd happ (hnone t tab)

/-- **The log is strict if and only if** no executor appends a record for a table while a transaction that has written
the table is between its release of the lock and its `ABORT` record. -/
theorem strict_iff {s₀ s : Sys} {tr : List (Sys × Event)} (hinit : Init s₀) (htr : Trace Step s₀ tr s) :
    Strict s.log ↔ ∀ x ∈ tr, NoOverlap x.1 x.2 := by
  constructor
  · intro hstrict x hx
    by_contra hover
    obtain ⟨tr₁, tr₂, b, h₁, h₂, h₃⟩ := htr.split hx
    exact not_strict_of_overlap (hinit.sane.run h₁) h₂ hover h₃ hstrict
  · intro hno
    have h := htr.inv (I := fun a => Sane a ∧ Strict a.log) hno ⟨hinit.sane, by rw [hinit.log]; exact strict_nil⟩
      fun ha hC hs => ⟨ha.1.step hs, ha.2.step ha.1 hC hs⟩
    exact h.2

/-- Transaction `1` inserts a record and is rolled back. Before it writes its `ABORT` record, transaction `2` inserts
one into the same table. -/
theorem strict_fails : ¬ ∀ s₀ tr s, Init s₀ → Trace Step s₀ tr s → Strict s.log := by
  intro hall
  have h₁ := Trace.nil.snoc (e := Event.beginTxn 1) (Step.beginTxn (s := freshServer) rfl)
  have h₂ := h₁.snoc (e := .lock 1 "t" .exclusive) (.lock rfl rfl)
  have h₃ := h₂.snoc (e := .insertRecord 1 "t" (filled 1)) (.insertRecord rfl List.mem_cons_self rfl rfl)
  have h₄ := h₃.snoc (e := .insertLog 1) (.insertLog rfl)
  have h₅ := h₄.snoc (e := .abort 1) (.abort rfl)
  have h₆ := h₅.snoc (e := .undo 1) (.undo rfl rfl rfl rfl)
  have h₇ := h₆.snoc (e := .unlock 1 "t") (.unlock (Or.inr ⟨rfl, rfl⟩))
  have h₈ := h₇.snoc (e := .beginTxn 2) (.beginTxn rfl)
  have h₉ := h₈.snoc (e := .lock 2 "t" .exclusive) (.lock rfl rfl)
  have h₁₀ := h₉.snoc (e := .insertRecord 2 "t" (filled 2)) (.insertRecord rfl List.mem_cons_self rfl rfl)
  refine not_strict_of_overlap (freshServer_init.sane.run h₁₀) (e := .insertLog 2) (.insertLog rfl) ?_ .nil
    (hall _ _ _ freshServer_init (h₁₀.snoc (e := .insertLog 2) (.insertLog rfl)))
  intro hno
  refine hno 2 "t" (.insertLog rfl) 1 (by decide) ⟨_, List.mem_cons_self, rfl⟩ ⟨rfl, ?_⟩
  rintro ⟨r, hr, hr1⟩
  obtain rfl := List.mem_singleton.mp hr
  cases hr1

/-- Transaction `1` alone. -/
theorem strict_iff_single : ∃ tr s, Trace Step freshServer tr s ∧ Writes s.log 1 "t" ∧
    (Strict s.log ↔ ∀ x ∈ tr, NoOverlap x.1 x.2) := by
  have h₁ := Trace.nil.snoc (e := Event.beginTxn 1) (Step.beginTxn (s := freshServer) rfl)
  have h₂ := h₁.snoc (e := .lock 1 "t" .exclusive) (.lock rfl rfl)
  have h₃ := h₂.snoc (e := .insertRecord 1 "t" (filled 1)) (.insertRecord rfl List.mem_cons_self rfl rfl)
  have h₄ := h₃.snoc (e := .insertLog 1) (.insertLog rfl)
  exact ⟨_, _, h₄, ⟨_, List.mem_cons_self, rfl⟩, strict_iff freshServer_init h₄⟩

end Rmdb.Transaction
