import Rmdb.Transaction.System

/-!
# The write-ahead rule

When a page goes to disk, the log record of every change in it should be in the log file
already. `UpdateExecutor` and `DeleteExecutor` append to the log before they change the
file, and so keep the rule whenever the page is written. `InsertExecutor` changes the file
first, and fetches index pages before it appends to the log; fetching a page can evict the
one just changed.

`writeAhead_iff`: a page is written in keeping with the rule exactly if no `INSERT` is at that
point in it.
-/

namespace Rmdb.Transaction

open Lib Record Recovery

/-- The log records for a table. -/
def tableLog (tab : String) (log : List LogRecord) : List LogRecord :=
  log.filter fun r => (LogRecord.entry tab r).isSome

/-- The log record is for a change in the page. -/
def onPage (tab : String) (pageNo : ℤ) (r : LogRecord) : Bool :=
  (LogRecord.entry tab r).any fun e => e.2.1.pageNo = pageNo

/-- The changes that executors have made in a page are in the log, each with a record of its own, in the same order. -/
def PageLogged (s : Sys) (tab : String) (pageNo : ℤ) : Prop :=
  (s.made tab).filter (onPage tab pageNo) <+: (tableLog tab s.log).filter (onPage tab pageNo)

/-- How the changes of a table and its log records differ: an `INSERT` may be ahead of the log, a `DELETE` or an
`UPDATE` behind it. -/
structure LogMatches (s : Sys) (tab : String) : Prop where
  inserted : ∀ t rid buf, s.pc t = .inserted tab rid buf →
    s.made tab = tableLog tab s.log ++ [.insert t tab rid buf]
  logged : ∀ t rid c, s.pc t = .logged tab rid c → tableLog tab s.log = s.made tab ++ [recordOf t tab rid c]
  rest : (∀ t, (s.pc t).tab ≠ some tab) → tableLog tab s.log = s.made tab

section Steps

variable {s s' : Sys} {e : Event} {t t' : TxnId} {tab : String}

theorem tableLog_append (log : List LogRecord) (r : LogRecord) :
    tableLog tab (log ++ [r]) = tableLog tab log ++ if (LogRecord.entry tab r).isSome then [r] else [] := by
  rw [tableLog, List.filter_append, ← tableLog, List.filter_singleton]
  cases (LogRecord.entry tab r).isSome <;> rfl

/-- A step that is not about the table. -/
theorem LogMatches.of_same (hm : LogMatches s tab) (hmade : s'.made tab = s.made tab)
    (hlog : tableLog tab s'.log = tableLog tab s.log)
    (hpc : ∀ t, s'.pc t = s.pc t ∨ (s.pc t).tab ≠ some tab ∧ (s'.pc t).tab ≠ some tab) : LogMatches s' tab where
  inserted t rid buf ht := by
    rcases hpc t with heq | ⟨-, hne⟩
    · rw [hmade, hlog]
      exact hm.inserted t rid buf (heq.symm.trans ht)
    · exact absurd (by rw [ht]; rfl) hne
  logged t rid c ht := by
    rcases hpc t with heq | ⟨-, hne⟩
    · rw [hmade, hlog]
      exact hm.logged t rid c (heq.symm.trans ht)
    · exact absurd (by rw [ht]; rfl) hne
  rest hnone := by
    rw [hmade, hlog]
    refine hm.rest ?_
    intro t ht
    rcases hpc t with heq | ⟨hne, -⟩
    · exact hnone t (by rw [heq]; exact ht)
    · exact hne ht

/-- Nobody but `t` is in the middle of an operation on the table, and what `t` is doing is right. -/
theorem LogMatches.of_pc (honly : ∀ t', t' ≠ t → (s'.pc t').tab ≠ some tab)
    (hins : ∀ rid buf, s'.pc t = .inserted tab rid buf → s'.made tab = tableLog tab s'.log ++ [.insert t tab rid buf])
    (hlogged : ∀ rid c, s'.pc t = .logged tab rid c → tableLog tab s'.log = s'.made tab ++ [recordOf t tab rid c])
    (hrest : (s'.pc t).tab ≠ some tab → tableLog tab s'.log = s'.made tab) : LogMatches s' tab where
  inserted t' rid buf ht' := by
    obtain rfl : t' = t := by_contra fun hne => honly t' hne (by rw [ht']; rfl)
    exact hins rid buf ht'
  logged t' rid c ht' := by
    obtain rfl : t' = t := by_contra fun hne => honly t' hne (by rw [ht']; rfl)
    exact hlogged rid c ht'
  rest hnone := hrest (hnone t)

/-- Between the operations of the transaction that holds the lock, the log has the changes made. -/
theorem LogMatches.of_holdsX (hs : Sane s) (hm : LogMatches s tab) (hx : HoldsX (s.locks tab) t) (ht : s.pc t = .running) :
    tableLog tab s.log = s.made tab := by
  refine hm.rest ?_
  intro t' ht'
  obtain rfl := hs.pending_unique hx ht'
  rw [ht] at ht'
  cases ht'

theorem update_pc (pc : TxnId → Pc) (t : TxnId) (x : Pc) (hold : (pc t).tab ≠ some tab) (hnew : x.tab ≠ some tab)
    (t' : TxnId) : Function.update pc t x t' = pc t' ∨
      (pc t').tab ≠ some tab ∧ (Function.update pc t x t').tab ≠ some tab := by
  by_cases h : t' = t
  · subst h
    rw [Function.update_self]
    exact Or.inr ⟨hold, hnew⟩
  · exact Or.inl (Function.update_of_ne h ..)

/-- An executor that appends to the log first. -/
theorem LogMatches.logging {tab₀ : String} {rid : Rid} {c : Change Bytes} (hs : Sane s) (hm : LogMatches s tab)
    (hx : HoldsX (s.locks tab₀) t) (hpc : s.pc t = .running) (hmade : s'.made = s.made)
    (hlog : s'.log = s.log ++ [recordOf t tab₀ rid c]) (hpc' : s'.pc = Function.update s.pc t (.logged tab₀ rid c)) :
    LogMatches s' tab := by
  by_cases htab : tab₀ = tab
  · subst htab
    refine .of_pc (t := t) (by rw [hpc']; exact hs.only hx) ?_ ?_ ?_
    · intro rid' buf' ht
      simp [hpc'] at ht
    · intro rid' c' ht
      simp only [hpc', Function.update_self, Pc.logged.injEq, true_and] at ht
      obtain ⟨rfl, rfl⟩ := ht
      simp [hlog, hmade, tableLog_append, hm.of_holdsX hs hx hpc]
    · intro ht
      simp [hpc', Pc.tab] at ht
  · refine hm.of_same (by rw [hmade]) (by simp [hlog, tableLog_append, htab]) ?_
    rw [hpc']
    exact update_pc _ _ _ (by simp [hpc, Pc.tab]) (by simp [Pc.tab, htab])

/-- It makes its change. -/
theorem LogMatches.making {tab₀ : String} {rid : Rid} {c : Change Bytes} (hs : Sane s) (hm : LogMatches s tab)
    (hpc : s.pc t = .logged tab₀ rid c) (hlog : s'.log = s.log)
    (hmade : s'.made = Function.update s.made tab₀ (s.made tab₀ ++ [recordOf t tab₀ rid c]))
    (hpc' : s'.pc = Function.update s.pc t .running) : LogMatches s' tab := by
  by_cases htab : tab₀ = tab
  · subst htab
    refine .of_pc (t := t) (by rw [hpc']; exact hs.only (hs.active t tab₀ (by rw [hpc]; rfl))) ?_ ?_ ?_
    · intro rid' buf' ht
      simp [hpc'] at ht
    · intro rid' c' ht
      simp [hpc'] at ht
    · intro _
      simp [hlog, hmade, hm.logged t rid c hpc]
  · refine hm.of_same (by simp [hmade, Ne.symm htab]) (by rw [hlog]) ?_
    rw [hpc']
    exact update_pc _ _ _ (by simp [hpc, Pc.tab, htab]) (by simp [Pc.tab])

/-- Every step keeps the changes and the log together. -/
theorem LogMatches.step (hs : Sane s) (hm : LogMatches s tab) (h : Step s e s') : LogMatches s' tab := by
  cases h with
  | @insertRecord t tab₀ buf f f' rid hpc hx hf hrun =>
    by_cases htab : tab₀ = tab
    · subst htab
      refine .of_pc (t := t) (hs.only hx) ?_ ?_ ?_
      · intro rid' buf' ht
        simp only [Function.update_self, Pc.inserted.injEq, true_and] at ht ⊢
        rw [hm.of_holdsX hs hx hpc, ht.1, ht.2]
      · intro rid' c ht
        simp at ht
      · intro ht
        simp [Pc.tab] at ht
    · exact hm.of_same (by simp [Ne.symm htab]) rfl (update_pc _ _ _ (by simp [hpc, Pc.tab]) (by simp [Pc.tab, htab]))
  | @insertLog t tab₀ rid buf hpc =>
    by_cases htab : tab₀ = tab
    · subst htab
      refine .of_pc (t := t) (hs.only (hs.active t tab₀ (by rw [hpc]; rfl))) ?_ ?_ ?_
      · intro rid' buf' ht
        simp at ht
      · intro rid' c ht
        simp at ht
      · intro ht
        simp only [tableLog_append, LogRecord.entry, if_true, Option.isSome_some, hm.inserted t rid buf hpc]
    · refine hm.of_same rfl ?_ (update_pc _ _ _ (by simp [hpc, Pc.tab, htab]) (by simp [Pc.tab]))
      simp [tableLog_append, LogRecord.entry, htab]
  | @insertFail t tab₀ rid buf f f' hpc hf hrun =>
    by_cases htab : tab₀ = tab
    · subst htab
      refine .of_pc (t := t) (hs.only (hs.active t tab₀ (by rw [hpc]; rfl))) ?_ ?_ ?_
      · intro rid' buf' ht
        simp at ht
      · intro rid' c ht
        simp at ht
      · intro ht
        simp [hm.inserted t rid buf hpc]
    · exact hm.of_same (by simp [Ne.symm htab]) rfl (update_pc _ _ _ (by simp [hpc, Pc.tab, htab]) (by simp [Pc.tab]))
  | deleteLog hpc hx _ _ | updateLog hpc hx _ _ => exact hm.logging hs hx hpc rfl rfl rfl
  | deleteRecord hpc _ _ | updateRecord hpc _ _ => exact hm.making hs hpc rfl rfl rfl
  | beginTxn hpc | commit hpc | abortLog hpc =>
    exact hm.of_same rfl (by simp [tableLog_append, LogRecord.entry])
      (update_pc _ _ _ (by simp [hpc, Pc.tab]) (by simp [Pc.tab]))
  | abort hpc | finish hpc =>
    exact hm.of_same rfl rfl (update_pc _ _ _ (by simp [hpc, Pc.tab]) (by simp [Pc.tab]))
  | commitAgain hpc => exact hm.of_same rfl (by simp [tableLog_append, LogRecord.entry]) fun t => Or.inl rfl
  | _ => exact hm.of_same rfl rfl fun t => Or.inl rfl

/-- What is wrong with a page is an `INSERT` in it that has not been logged. -/
theorem LogMatches.pageLogged_iff (hm : LogMatches s tab) (pageNo : ℤ) :
    PageLogged s tab pageNo ↔ ∀ t rid buf, s.pc t = .inserted tab rid buf → rid.pageNo ≠ pageNo := by
  unfold PageLogged
  constructor
  · rintro hpre t rid buf hpc rfl
    rw [hm.inserted t rid buf hpc, List.filter_append] at hpre
    have hlen := hpre.length_le
    rw [List.length_append] at hlen
    have hone : (List.filter (onPage tab rid.pageNo) [LogRecord.insert t tab rid buf]).length = 1 := by
      simp [onPage, LogRecord.entry]
    omega
  · intro hno
    by_cases hpend : ∃ t, (s.pc t).tab = some tab
    · obtain ⟨t, ht⟩ := hpend
      cases hpc : s.pc t with
      | inserted tab₀ rid buf =>
        rw [hpc] at ht
        obtain rfl : tab₀ = tab := Option.some.inj ht
        have hne := hno t rid buf hpc
        rw [hm.inserted t rid buf hpc, List.filter_append]
        simp [onPage, LogRecord.entry, hne]
      | logged tab₀ rid c =>
        rw [hpc] at ht
        obtain rfl : tab₀ = tab := Option.some.inj ht
        rw [hm.logged t rid c hpc, List.filter_append]
        exact List.prefix_append ..
      | _ =>
        rw [hpc] at ht
        cases ht
    · have hrest := hm.rest fun t ht => hpend ⟨t, ht⟩
      exact hrest ▸ List.prefix_refl _

end Steps

theorem Init.logMatches {s : Sys} (h : Init s) (tab : String) : LogMatches s tab := by
  refine ⟨?_, ?_, ?_⟩
  · intro t rid buf ht
    rw [h.pc] at ht
    cases ht
  · intro t rid c ht
    rw [h.pc] at ht
    cases ht
  · intro _
    rw [h.log, h.made]
    rfl

theorem logMatches_run {s₀ s : Sys} {tr : List (Sys × Event)} (hinit : Init s₀) (htr : Trace Step s₀ tr s)
    (tab : String) : LogMatches s tab :=
  (htr.inv' (I := fun a => Sane a ∧ LogMatches a tab) ⟨hinit.sane, hinit.logMatches tab⟩
    fun ha hs => ⟨ha.1.step hs, ha.2.step ha.1 hs⟩).2

/-- The write-ahead rule: a page that is written has no change that is not in the log. -/
def WriteAhead (s : Sys) (e : Event) : Prop := ∀ tab pageNo, e = .writePage tab pageNo → PageLogged s tab pageNo

/-- No page is written while an `INSERT` that has put its record into it has not appended to the log. -/
def NoInsertInPage (s : Sys) (e : Event) : Prop :=
  ∀ tab pageNo, e = .writePage tab pageNo → ∀ t rid buf, s.pc t = .inserted tab rid buf → rid.pageNo ≠ pageNo

/-- **A run keeps the write-ahead rule if and only if** no page is written while an `INSERT` is between the insertion
of its record into that page and its log append. -/
theorem writeAhead_iff {s₀ s : Sys} {tr : List (Sys × Event)} (hinit : Init s₀) (htr : Trace Step s₀ tr s) :
    (∀ x ∈ tr, WriteAhead x.1 x.2) ↔ ∀ x ∈ tr, NoInsertInPage x.1 x.2 := by
  refine forall₂_congr fun x hx => forall₃_congr ?_
  intro tab pageNo _
  obtain ⟨tr₁, -, -, h₁, -⟩ := htr.split hx
  exact (logMatches_run hinit h₁ tab).pageLogged_iff pageNo

/-- The first `INSERT` into a table; its page is evicted before the log append, by a fetch of an index page. -/
theorem writeAhead_fails : ¬ ∀ s₀ tr s, Init s₀ → Trace Step s₀ tr s → ∀ x ∈ tr, WriteAhead x.1 x.2 := by
  intro hall
  have h₁ := Trace.nil.snoc (e := Event.beginTxn 1) (Step.beginTxn (s := freshServer) rfl)
  have h₂ := h₁.snoc (e := .lock 1 "t" .exclusive) (.lock rfl rfl)
  have h₃ := h₂.snoc (e := .insertRecord 1 "t" (filled 1)) (.insertRecord rfl List.mem_cons_self rfl rfl)
  have h₄ := h₃.snoc (e := .writePage "t" 1) (.writePage rfl rfl)
  have hlogged := hall _ _ _ freshServer_init h₄ _ (List.mem_append_right _ List.mem_cons_self) "t" 1 rfl
  exact ((logMatches_run freshServer_init h₃ "t").pageLogged_iff 1).mp hlogged 1 _ _ rfl rfl

/-- The same page, evicted after the log append. -/
theorem writeAhead_iff_logged : ∃ tr s, Trace Step freshServer tr s ∧ (∃ x ∈ tr, x.2 = .writePage "t" 1) ∧
    ((∀ x ∈ tr, WriteAhead x.1 x.2) ↔ ∀ x ∈ tr, NoInsertInPage x.1 x.2) := by
  have h₁ := Trace.nil.snoc (e := Event.beginTxn 1) (Step.beginTxn (s := freshServer) rfl)
  have h₂ := h₁.snoc (e := .lock 1 "t" .exclusive) (.lock rfl rfl)
  have h₃ := h₂.snoc (e := .insertRecord 1 "t" (filled 1)) (.insertRecord rfl List.mem_cons_self rfl rfl)
  have h₄ := h₃.snoc (e := .insertLog 1) (.insertLog rfl)
  have h₅ := h₄.snoc (e := .writePage "t" 1) (.writePage rfl rfl)
  exact ⟨_, _, h₅, ⟨_, List.mem_append_right _ List.mem_cons_self, rfl⟩, writeAhead_iff freshServer_init h₅⟩

end Rmdb.Transaction
