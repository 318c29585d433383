import Rmdb.Transaction.Strict

/-!
# What the log says of a table

A run of the server from an empty log, without overlap in the log (`NoOverlap`), seen from
one table. The log has the changes `X` of transactions that have ended, followed by the
changes `U` of one transaction that has not. Those of `X` that are not of an aborted
transaction, and `U`, can be made one after the other on the records the table started
with. The table holds what they make of it, less the changes at the end of `U` that are
being rolled back, more or less the change an executor is in the middle of
(`TableHist`).

Every step keeps this (`HistOk.step`): `commit` and `abort` move `U` over to `X`, and a
rollback takes back the changes of `U` one at a time.
-/

namespace Rmdb.Recovery

open Lib Record RmFileHandle Transaction Change

/-- The write record for a change. -/
def writeOf (tab : String) : Rid × Change Bytes → WriteRecord
  | (rid, .insert _) => .insert tab rid
  | (rid, .delete old) => .delete tab rid old
  | (rid, .update old _) => .update tab rid old

@[simp] theorem tabName_writeOf (tab : String) (x : Rid × Change Bytes) : (writeOf tab x).tabName = tab := by
  obtain ⟨rid, c⟩ := x
  cases c <;> rfl

/-- The changes that are not of an aborted transaction. -/
def kept (log : List LogRecord) (X : List (TxnId × Rid × Change Bytes)) : List (Rid × Change Bytes) :=
  (X.filter fun e => e.1 ∉ abortedTxns log).map Prod.snd

/-- The history of a table that had the records `m₀` and has the records `m`. -/
structure TableHist (s : Sys) (tab : String) (m₀ m : Rid → Option Bytes) (X U : List (TxnId × Rid × Change Bytes))
    (V W : List (Rid × Change Bytes)) (t : TxnId) : Prop where
  /-- The log has `X` and then `U`. -/
  split : entries tab s.log = X ++ U
  /-- `X` is of transactions that have ended. -/
  ended : ∀ e ∈ X, Ended s.log e.1
  /-- `U` is of one transaction. -/
  own : ∀ e ∈ U, e.1 = t
  /-- That transaction has not ended. -/
  unended : U ≠ [] → ¬ Ended s.log t
  /-- The changes can be made one after the other. -/
  valid : ValidAt m₀ (kept s.log X ++ U.map Prod.snd)
  /-- Of the changes of `U`, `V` stands and `W` has been rolled back. -/
  parts : U.map Prod.snd = V ++ W
  /-- A rollback is in `abort`. -/
  rolled : W ≠ [] → s.pc t = .aborting
  /-- What stands can be rolled back. -/
  writes : writesTo tab (s.writeSet t) = (V.map (writeOf tab)).reverse
  /-- Nobody else has written the table. -/
  others : ∀ t', t' ≠ t → writesTo tab (s.writeSet t') = []
  /-- An `INSERT` is ahead of the log. -/
  inserted : ∀ t' rid buf, s.pc t' = .inserted tab rid buf → replayAt apply m₀ (kept s.log X ++ V) rid = none ∧
    m = Function.update (replayAt apply m₀ (kept s.log X ++ V)) rid (some buf)
  /-- A `DELETE` or an `UPDATE` is behind the log. -/
  logged : ∀ t' rid c, s.pc t' = .logged tab rid c →
    ∃ V', V = V' ++ [(rid, c)] ∧ m = replayAt apply m₀ (kept s.log X ++ V')
  /-- Between the operations. -/
  rest : (∀ t', (s.pc t').tab ≠ some tab) → m = replayAt apply m₀ (kept s.log X ++ V)

/-- The table has a history. -/
def HistOk (s : Sys) (tab : String) (m₀ m : Rid → Option Bytes) : Prop :=
  ∃ X U V W t, TableHist s tab m₀ m X U V W t

section Steps

variable {s s' : Sys} {e : Event} {tab : String} {m₀ m m' : Rid → Option Bytes} {t : TxnId}
  {X U : List (TxnId × Rid × Change Bytes)} {V W : List (Rid × Change Bytes)}

theorem kept_congr {log log' : List LogRecord} (h : ∀ e ∈ X, e.1 ∈ abortedTxns log' ↔ e.1 ∈ abortedTxns log) :
    kept log' X = kept log X := by
  unfold kept
  congr 1
  refine List.filter_congr ?_
  intro e he
  simp only [h e he]

theorem kept_append (log : List LogRecord) (A B : List (TxnId × Rid × Change Bytes)) :
    kept log (A ++ B) = kept log A ++ kept log B := by
  unfold kept
  rw [List.filter_append, List.map_append]

/-- A transaction is where it was, as far as the table is concerned. -/
def SamePc (tab : String) (a b : Pc) : Prop :=
  b = a ∨ a.tab ≠ some tab ∧ b.tab ≠ some tab ∧ (a = .aborting → b = .aborting)

theorem samePc_update {pc : TxnId → Pc} {t : TxnId} {x : Pc} (h : SamePc tab (pc t) x) (t' : TxnId) :
    SamePc tab (pc t') (Function.update pc t x t') := by
  by_cases ht : t' = t
  · subst ht
    rw [Function.update_self]
    exact h
  · rw [Function.update_of_ne ht]
    exact Or.inl rfl

/-- A step that does not change the history of the table. -/
theorem TableHist.of_same (h : TableHist s tab m₀ m X U V W t) (hlog : entries tab s'.log = entries tab s.log)
    (hended : ∀ e ∈ X, Ended s.log e.1 → Ended s'.log e.1) (hunended : U ≠ [] → ¬ Ended s.log t → ¬ Ended s'.log t)
    (hkept : kept s'.log X = kept s.log X)
    (hws : ∀ t', writesTo tab (s'.writeSet t') = writesTo tab (s.writeSet t'))
    (hpc : ∀ t', SamePc tab (s.pc t') (s'.pc t') ∨ t' ≠ t ∧ (s.pc t').tab ≠ some tab ∧ (s'.pc t').tab ≠ some tab) :
    TableHist s' tab m₀ m X U V W t := by
  have hpc' : ∀ t', s'.pc t' = s.pc t' ∨ (s.pc t').tab ≠ some tab ∧ (s'.pc t').tab ≠ some tab := fun t' => by
    rcases hpc t' with (heq | ⟨h₁, h₂, -⟩) | ⟨-, h₁, h₂⟩
    · exact Or.inl heq
    · exact Or.inr ⟨h₁, h₂⟩
    · exact Or.inr ⟨h₁, h₂⟩
  refine ⟨hlog.trans h.split, fun e he => hended e he (h.ended e he), h.own, fun hU => hunended hU (h.unended hU),
    by rw [hkept]; exact h.valid, h.parts, ?_, by rw [hws]; exact h.writes,
    fun t' ht' => by rw [hws]; exact h.others t' ht', ?_, ?_, ?_⟩
  · intro hW
    have hold := h.rolled hW
    rcases hpc t with (heq | ⟨-, -, himp⟩) | ⟨hne, -⟩
    · rw [heq, hold]
    · exact himp hold
    · exact absurd rfl hne
  · intro t' rid buf ht'
    rw [hkept]
    rcases hpc' t' with heq | ⟨-, hne⟩
    · exact h.inserted t' rid buf (heq.symm.trans ht')
    · exact absurd (by rw [ht']; rfl) hne
  · intro t' rid c ht'
    rw [hkept]
    rcases hpc' t' with heq | ⟨-, hne⟩
    · exact h.logged t' rid c (heq.symm.trans ht')
    · exact absurd (by rw [ht']; rfl) hne
  · intro hnone
    rw [hkept]
    refine h.rest ?_
    intro t' ht'
    rcases hpc' t' with heq | ⟨hne, -⟩
    · exact hnone t' (by rw [heq]; exact ht')
    · exact hne ht'

/-- The history when no operation is under way in the table. -/
theorem TableHist.of_rest (hsplit : entries tab s.log = X ++ U) (hended : ∀ e ∈ X, Ended s.log e.1)
    (hown : ∀ e ∈ U, e.1 = t) (hunended : U ≠ [] → ¬ Ended s.log t)
    (hvalid : ValidAt m₀ (kept s.log X ++ U.map Prod.snd)) (hparts : U.map Prod.snd = V ++ W)
    (hrolled : W ≠ [] → s.pc t = .aborting) (hwrites : writesTo tab (s.writeSet t) = (V.map (writeOf tab)).reverse)
    (hothers : ∀ t', t' ≠ t → writesTo tab (s.writeSet t') = []) (hnone : ∀ t', (s.pc t').tab ≠ some tab)
    (hm : m = replayAt apply m₀ (kept s.log X ++ V)) : TableHist s tab m₀ m X U V W t :=
  ⟨hsplit, hended, hown, hunended, hvalid, hparts, hrolled, hwrites, hothers,
    fun t' _ _ ht' => absurd (by rw [ht']; rfl) (hnone t'), fun t' _ _ ht' => absurd (by rw [ht']; rfl) (hnone t'),
    fun _ => hm⟩

/-- The transaction that the history ends with can be any one, if that part is empty. -/
theorem TableHist.owner (h : TableHist s tab m₀ m X U V W t) {t₁ : TxnId} (hU : U ≠ [] → t = t₁) :
    TableHist s tab m₀ m X U V W t₁ := by
  by_cases htt : t = t₁
  · exact htt ▸ h
  · obtain rfl : U = [] := by_contra fun hne => htt (hU hne)
    obtain ⟨rfl, rfl⟩ := List.append_eq_nil_iff.mp h.parts.symm
    refine ⟨h.split, h.ended, nofun, fun hne => absurd rfl hne, h.valid, rfl, fun hne => absurd rfl hne,
      h.others t₁ (Ne.symm htt), ?_, h.inserted, h.logged, h.rest⟩
    intro t' _
    by_cases ht' : t' = t
    · rw [ht']
      exact h.writes
    · exact h.others t' ht'

/-- The transaction ends: its changes become part of `X`. -/
theorem TableHist.finish (h : TableHist s tab m₀ m X U V W t) (hlog : entries tab s'.log = entries tab s.log)
    (hended : ∀ e ∈ X ++ U, Ended s'.log e.1) (hkept : kept s'.log (X ++ U) = kept s.log X ++ V)
    (hws : writesTo tab (s'.writeSet t) = []) (hws' : ∀ t', t' ≠ t → s'.writeSet t' = s.writeSet t')
    (hnolog : ∀ t' rid c, s.pc t' ≠ .logged tab rid c)
    (hpc : ∀ t', s'.pc t' = s.pc t' ∨ (s.pc t').tab ≠ some tab ∧ (s'.pc t').tab ≠ some tab) :
    TableHist s' tab m₀ m (X ++ U) [] [] [] t := by
  refine ⟨by rw [hlog, h.split, List.append_nil], hended, nofun, fun hne => absurd rfl hne, ?_, rfl,
    fun hne => absurd rfl hne, hws, fun t' ht' => by rw [hws' t' ht']; exact h.others t' ht', ?_, ?_, ?_⟩
  · have hvalid := h.valid
    rw [h.parts, ← List.append_assoc] at hvalid
    rw [List.map_nil, List.append_nil, hkept]
    exact (validAt_append.mp hvalid).1
  · intro t' rid buf ht'
    rw [hkept, List.append_nil]
    rcases hpc t' with heq | ⟨-, hne⟩
    · exact h.inserted t' rid buf (heq.symm.trans ht')
    · exact absurd (by rw [ht']; rfl) hne
  · intro t' rid c ht'
    rcases hpc t' with heq | ⟨-, hne⟩
    · exact absurd (heq.symm.trans ht') (hnolog t' rid c)
    · exact absurd (by rw [ht']; rfl) hne
  · intro hnone
    rw [hkept, List.append_nil]
    refine h.rest ?_
    intro t' ht'
    rcases hpc t' with heq | ⟨hne, -⟩
    · exact hnone t' (by rw [heq]; exact ht')
    · exact hne ht'

/-- An executor appends to the log: it has made its change, or is about to make it. -/
theorem TableHist.append {rid : Rid} {c : Change Bytes} (h : TableHist s tab m₀ m X U V [] t)
    (hlog : entries tab s'.log = entries tab s.log ++ [(t, rid, c)]) (hended : ∀ t', Ended s'.log t' ↔ Ended s.log t')
    (hkept : kept s'.log X = kept s.log X) (ht : ¬ Ended s.log t)
    (hvalid : c.Valid (replayAt apply m₀ (kept s.log X ++ V) rid))
    (hws : s'.writeSet = Function.update s.writeSet t (writeOf tab (rid, c) :: s.writeSet t))
    (hnone : ∀ t', t' ≠ t → (s'.pc t').tab ≠ some tab)
    (hpc : (s'.pc t).tab ≠ some tab ∧ m = replayAt apply m₀ (kept s.log X ++ (V ++ [(rid, c)])) ∨
      s'.pc t = .logged tab rid c ∧ m = replayAt apply m₀ (kept s.log X ++ V)) :
    TableHist s' tab m₀ m X (U ++ [(t, rid, c)]) (V ++ [(rid, c)]) [] t := by
  have hparts : U.map Prod.snd = V := h.parts.trans (List.append_nil _)
  have honly : ∀ t', (s'.pc t').tab = some tab → t' = t := fun t' ht' => by_contra fun hne => hnone t' hne ht'
  refine ⟨?_, fun e he => (hended _).mpr (h.ended e he), ?_, fun _ => mt (hended t).mp ht, ?_, ?_,
    fun hne => absurd rfl hne, ?_, ?_, ?_, ?_, ?_⟩
  · rw [hlog, h.split, List.append_assoc]
  · intro e he
    rcases List.mem_append.mp he with he | he
    · exact h.own e he
    · rw [List.mem_singleton.mp he]
  · rw [hkept, List.map_append, ← List.append_assoc, validAt_append, hparts]
    exact ⟨by simpa only [hparts] using h.valid, hvalid, trivial⟩
  · rw [List.map_append, hparts, List.append_nil]
    rfl
  · rw [hws, Function.update_self, List.map_append, List.reverse_append, ← h.writes]
    simp [writesTo]
  · intro t' ht'
    rw [hws, Function.update_of_ne ht']
    exact h.others t' ht'
  · intro t' rid' buf ht'
    obtain rfl := honly t' (by rw [ht']; rfl)
    rcases hpc with ⟨hne, -⟩ | ⟨hpc, -⟩
    · exact absurd (by rw [ht']; rfl) hne
    · rw [hpc] at ht'
      cases ht'
  · intro t' rid' c' ht'
    obtain rfl := honly t' (by rw [ht']; rfl)
    rcases hpc with ⟨hne, -⟩ | ⟨hpc, hm⟩
    · exact absurd (by rw [ht']; rfl) hne
    · obtain ⟨-, rfl, rfl⟩ := Pc.logged.inj (hpc.symm.trans ht')
      exact ⟨V, rfl, by rw [hkept]; exact hm⟩
  · intro hno
    rcases hpc with ⟨-, hm⟩ | ⟨hpc, -⟩
    · rw [hkept]
      exact hm
    · exact absurd (by rw [hpc]; rfl) (hno t)

/-- An operation on the table is over: the table has what the log says. -/
theorem TableHist.settle (h : TableHist s tab m₀ m X U V W t) (hlog : s'.log = s.log) (hws : s'.writeSet = s.writeSet)
    (hrolled : s.pc t = .aborting → s'.pc t = .aborting) (hnone : ∀ t', (s'.pc t').tab ≠ some tab)
    (hm : m' = replayAt apply m₀ (kept s.log X ++ V)) : TableHist s' tab m₀ m' X U V W t := by
  refine .of_rest (by rw [hlog]; exact h.split) (fun e he => by rw [hlog]; exact h.ended e he) h.own
    (fun hU => by rw [hlog]; exact h.unended hU) (by rw [hlog]; exact h.valid) h.parts
    (fun hW => hrolled (h.rolled hW)) (by rw [hws]; exact h.writes)
    (fun t' ht' => by rw [hws]; exact h.others t' ht') hnone (by rw [hlog]; exact hm)

/-- An `INSERT` puts its record into the table. -/
theorem TableHist.insert {t₁ : TxnId} {rid : Rid} {buf : Bytes} (h : TableHist s tab m₀ m X U V W t)
    (hlog : s'.log = s.log) (hws : s'.writeSet = s.writeSet) (ht₁ : s.pc t₁ = .running)
    (hnone : ∀ t', (s.pc t').tab ≠ some tab) (hpc : s'.pc = Function.update s.pc t₁ (.inserted tab rid buf))
    (hrid : m rid = none) (hm : m' = Function.update m rid (some buf)) : TableHist s' tab m₀ m' X U V W t := by
  have hm₁ := h.rest hnone
  have honly : ∀ t', (s'.pc t').tab = some tab → t' = t₁ := by
    intro t' ht'
    by_contra hne
    rw [hpc, Function.update_of_ne hne] at ht'
    exact hnone t' ht'
  refine ⟨by rw [hlog]; exact h.split, fun e he => by rw [hlog]; exact h.ended e he, h.own,
    fun hU => by rw [hlog]; exact h.unended hU, by rw [hlog]; exact h.valid, h.parts, ?_,
    by rw [hws]; exact h.writes, fun t' ht' => by rw [hws]; exact h.others t' ht', ?_, ?_, ?_⟩
  · intro hW
    have hold := h.rolled hW
    rw [hpc, Function.update_of_ne, hold]
    rintro rfl
    rw [ht₁] at hold
    cases hold
  · intro t' rid' buf' ht'
    obtain rfl := honly t' (by rw [ht']; rfl)
    rw [hpc, Function.update_self] at ht'
    obtain ⟨-, rfl, rfl⟩ := Pc.inserted.inj ht'
    rw [hlog, ← hm₁]
    exact ⟨hrid, hm⟩
  · intro t' rid' c ht'
    obtain rfl := honly t' (by rw [ht']; rfl)
    rw [hpc, Function.update_self] at ht'
    cases ht'
  · intro hno
    refine absurd ?_ (hno t₁)
    rw [hpc, Function.update_self]
    rfl

/-- The latest write is of the latest change that stands. -/
theorem TableHist.latest {w : WriteRecord} {ws : List WriteRecord} (h : TableHist s tab m₀ m X U V W t)
    (hw : s.writeSet t = w :: ws) (htab : w.tabName = tab) :
    ∃ V' x, V = V' ++ [x] ∧ w = writeOf tab x ∧ writesTo tab ws = (V'.map (writeOf tab)).reverse ∧
      x.2.Valid (replayAt apply m₀ (kept s.log X ++ V') x.1) := by
  have hwrites := h.writes
  rw [hw, writesTo, List.filter_cons_of_pos (by simpa using htab), ← writesTo] at hwrites
  obtain ⟨V', x, rfl⟩ : ∃ V' x, V = V' ++ [x] := by
    rcases List.eq_nil_or_concat V with rfl | ⟨V', x, rfl⟩
    · cases hwrites
    · exact ⟨V', x, List.concat_eq_append⟩
  rw [List.map_append, List.reverse_append] at hwrites
  obtain ⟨hwx, hrest⟩ := List.cons.inj hwrites
  have hvalid := h.valid
  rw [h.parts, List.append_assoc V', ← List.append_assoc, validAt_append] at hvalid
  exact ⟨V', x, rfl, hwx, hrest, hvalid.2.1⟩

/-- The rollback of one write. -/
theorem TableHist.undo {ws : List WriteRecord} {x : Rid × Change Bytes} (h : TableHist s tab m₀ m X U (V ++ [x]) W t)
    (hwrites : writesTo tab ws = (V.map (writeOf tab)).reverse) (hpc : s.pc t = .aborting)
    (hnone : ∀ t', (s.pc t').tab ≠ some tab) (hlog : s'.log = s.log)
    (hws : s'.writeSet = Function.update s.writeSet t ws) (hpc' : s'.pc = s.pc)
    (hm : m' = replayAt apply m₀ (kept s.log X ++ V)) : TableHist s' tab m₀ m' X U V (x :: W) t := by
  refine .of_rest (by rw [hlog]; exact h.split) (fun e he => by rw [hlog]; exact h.ended e he) h.own
    (fun hU => by rw [hlog]; exact h.unended hU) (by rw [hlog]; exact h.valid) (by rw [h.parts]; simp)
    (fun _ => by rw [hpc']; exact hpc) ?_ ?_ (by rw [hpc']; exact hnone) (by rw [hlog]; exact hm)
  · rw [hws, Function.update_self]
    exact hwrites
  · intro t' ht'
    rw [hws, Function.update_of_ne ht']
    exact h.others t' ht'

/-- The rollback of a write gives the slot back what it had before. -/
theorem undoWrite_spec {f f' : RmFileHandle} {rid : Rid} {c : Change Bytes} {o : Option Bytes} (hf : f.PagesOk)
    (hrid : RidOk f.numRecordsPerPage rid) (hc : c.Valid o) (hr : f.records rid = c.apply o)
    (hrun : f.undoWrite (writeOf tab (rid, c)) = .ok f') : Changed f f' rid o := by
  cases c with
  | insert v =>
    obtain ⟨f₁, hrun₁, hch⟩ := deleteRecord_spec hf hr
    simp only [writeOf, RmFileHandle.undoWrite, getRecord_eq hr, hrun₁, bind, Except.bind, Except.ok.injEq] at hrun
    obtain rfl : o = none := hc
    exact hrun ▸ hch
  | delete old =>
    obtain ⟨f₁, hrun₁, hch⟩ := insertRecordAt_spec hf hrid hr old
    simp only [writeOf, RmFileHandle.undoWrite, hrun₁, Except.ok.injEq] at hrun
    obtain rfl : o = some old := hc
    exact hrun ▸ hch
  | update old new =>
    obtain ⟨f₁, hrun₁, hch⟩ := updateRecord_spec hf hr old
    simp only [writeOf, RmFileHandle.undoWrite, getRecord_eq hr, hrun₁, bind, Except.bind, Except.ok.injEq] at hrun
    obtain rfl : o = some old := hc
    exact hrun ▸ hch

end Steps

/-- A table with a history, that was the file `f₀` at the start and is the file `f` now. -/
structure TableIn (f₀ : RmFileHandle) (s : Sys) (tab : String) (f : RmFileHandle) : Prop where
  /-- The file is `f`. -/
  file : s.tables tab = some f
  /-- Every page is in order. -/
  pages : f.PagesOk
  /-- The number of slots in a page. -/
  per : f.numRecordsPerPage = f₀.numRecordsPerPage
  /-- Pages stay. -/
  grows : f₀.numPages ≤ f.numPages
  /-- The file header is a page. -/
  first : RM_FIRST_RECORD_PAGE ≤ f₀.numPages
  /-- The rids in the log are of slots. -/
  rids : ∀ e ∈ entries tab s.log, RidOk f₀.numRecordsPerPage e.2.1
  /-- The history. -/
  hist : HistOk s tab f₀.records f.records

/-- A table that the log does not mention, and that nobody is working on. -/
theorem tableIn_fresh {s : Sys} {tab : String} {f : RmFileHandle} (hf : s.tables tab = some f) (hpages : f.PagesOk)
    (hfirst : RM_FIRST_RECORD_PAGE ≤ f.numPages) (hnil : entries tab s.log = [])
    (hws : ∀ t, writesTo tab (s.writeSet t) = []) (hpc : ∀ t, (s.pc t).tab ≠ some tab) : TableIn f s tab f := by
  refine ⟨hf, hpages, rfl, le_refl _, hfirst, by simp [hnil], [], [], [], [], 0, ?_⟩
  exact .of_rest hnil nofun nofun (fun hne => absurd rfl hne) trivial rfl (fun hne => absurd rfl hne) (hws 0)
    (fun t' _ => hws t') hpc rfl

theorem tableIn_init {s : Sys} (h : Init s) {tab : String} {f : RmFileHandle} (hf : s.tables tab = some f) :
    TableIn f s tab f := by
  refine tableIn_fresh hf (h.pages tab f hf) (h.first tab f hf) (by rw [h.log]; rfl) ?_ ?_
  · intro t
    rw [h.writeSet]
    rfl
  · intro t
    rw [h.pc]
    simp [Pc.tab]

section TableSteps

variable {s s' : Sys} {e : Event} {tab : String} {f₀ f f' : RmFileHandle} {t : TxnId}

/-- A step that is not about the table. -/
theorem TableIn.of_same (h : TableIn f₀ s tab f) (hf : s'.tables tab = s.tables tab)
    (hlog : entries tab s'.log = entries tab s.log) (hist : HistOk s' tab f₀.records f.records) :
    TableIn f₀ s' tab f :=
  ⟨hf.trans h.file, h.pages, h.per, h.grows, h.first, by rw [hlog]; exact h.rids, hist⟩

/-- A step that changes one slot. -/
theorem TableIn.of_changed {rid : Rid} {o : Option Bytes} (h : TableIn f₀ s tab f) (hf : s'.tables tab = some f')
    (hch : Changed f f' rid o) (hlog : entries tab s'.log = entries tab s.log)
    (hist : HistOk s' tab f₀.records f'.records) : TableIn f₀ s' tab f' :=
  ⟨hf, hch.pages, hch.per.trans h.per, h.grows.trans hch.grows, h.first, by rw [hlog]; exact h.rids, hist⟩

/-- An executor that appends to the log works on a table whose history ends with its own changes. -/
theorem HistOk.owner {m₀ m : Rid → Option Bytes} (hist : HistOk s tab m₀ m) (hs : Sane s) (h : Appends s e t tab)
    (hno : NoOverlap s e) : ∃ X U V, TableHist s tab m₀ m X U V [] t := by
  obtain ⟨X, U, V, W, t₀, hist⟩ := hist
  have howner : U ≠ [] → t₀ = t := by
    intro hU
    by_contra hne
    obtain ⟨e₀, he₀⟩ := List.exists_mem_of_ne_nil U hU
    have hw : Writes s.log t₀ tab := ⟨e₀, by rw [hist.split]; exact List.mem_append_right _ he₀, hist.own e₀ he₀⟩
    rcases h.others hs hne hw with hended | hrel
    · exact hist.unended hU hended
    · exact hno t tab h t₀ hne hw hrel
  have hist' := hist.owner howner
  obtain rfl : W = [] := by
    by_contra hW
    have hab := hist'.rolled hW
    cases h with
    | insertLog hpc => rw [hpc] at hab; cases hab
    | deleteLog hpc _ => rw [hpc] at hab; cases hab
    | updateLog hpc _ => rw [hpc] at hab; cases hab
  exact ⟨X, U, V, hist'⟩

/-- The log grows by a record that is not an `ABORT` record. -/
theorem kept_concat {log : List LogRecord} {r : LogRecord} {X : List (TxnId × Rid × Change Bytes)}
    (h : ∀ t, r = .abort t → ∀ e ∈ X, e.1 ≠ t) : kept (log ++ [r]) X = kept log X := by
  refine kept_congr ?_
  intro e he
  rw [abortedTxns, List.filterMap_append, List.mem_append, ← abortedTxns, ← abortedTxns, or_iff_left_iff_imp]
  intro hr
  cases r with
  | abort t => exact absurd (by simpa [abortedTxns] using hr) (h t rfl e he)
  | _ => simp [abortedTxns] at hr

/-- The log says the same of the table, and of who has ended. -/
structure SameLog (tab : String) (log log' : List LogRecord) : Prop where
  entries : entries tab log' = entries tab log
  ended : ∀ t, Ended log' t ↔ Ended log t
  kept : ∀ X, kept log' X = kept log X

theorem SameLog.refl (tab : String) (log : List LogRecord) : SameLog tab log log := ⟨rfl, fun _ => Iff.rfl, fun _ => rfl⟩

theorem SameLog.concat {log : List LogRecord} {r : LogRecord} (hentry : LogRecord.entry tab r = none)
    (hends : ∀ t, LogRecord.ends r = some t → Ended log t) (hab : ∀ t, r ≠ .abort t) : SameLog tab log (log ++ [r]) := by
  refine ⟨?_, ?_, fun X => kept_concat fun t ht => absurd ht (hab t)⟩
  · rw [entries_concat, hentry, Option.toList_none, List.append_nil]
  · intro t
    rw [ended_append, ended_singleton, or_iff_left_iff_imp]
    exact hends t

/-- A step that is not about the table, and ends no transaction. -/
theorem TableIn.frame (h : TableIn f₀ s tab f) (hf : s'.tables tab = s.tables tab) (hlog : SameLog tab s.log s'.log)
    (hws : ∀ t', writesTo tab (s'.writeSet t') = writesTo tab (s.writeSet t'))
    (hpc : ∀ t', SamePc tab (s.pc t') (s'.pc t')) : TableIn f₀ s' tab f := by
  obtain ⟨X, U, V, W, t, hist⟩ := h.hist
  exact h.of_same hf hlog.entries ⟨X, U, V, W, t, hist.of_same hlog.entries (fun _ _ => (hlog.ended _).mpr)
    (fun _ => mt (hlog.ended t).mp) (hlog.kept X) hws fun t' => Or.inl (hpc t')⟩

theorem ended_of_aborted {log : List LogRecord} (h : t ∈ abortedTxns log) : Ended log t := by
  obtain ⟨r, hr, hra⟩ := List.mem_filterMap.mp h
  refine ⟨r, hr, ?_⟩
  cases r with
  | abort t' => exact hra
  | _ => cases hra

/-- A transaction writes its last record: its changes stand, or it has rolled them back. -/
theorem TableIn.terminate {r : LogRecord} {x : Pc} (h : TableIn f₀ s tab f) (hnot : ¬ Ended s.log t)
    (hpct : (s.pc t).tab = none) (hx : x.tab = none) (hf : s'.tables = s.tables) (hlog : s'.log = s.log ++ [r])
    (hentry : LogRecord.entry tab r = none) (hends : LogRecord.ends r = some t)
    (hws : s'.writeSet = Function.update s.writeSet t []) (hpc : s'.pc = Function.update s.pc t x)
    (howner : ∀ {X U V W}, TableHist s tab f₀.records f.records X U V W t →
      kept s'.log (X ++ U) = kept s.log X ++ V ∧ ∀ t' rid c, s.pc t' ≠ .logged tab rid c) : TableIn f₀ s' tab f := by
  obtain ⟨X, U, V, W, t₀, hist⟩ := h.hist
  have hentries : entries tab s'.log = entries tab s.log := by
    rw [hlog, entries_concat, hentry, Option.toList_none, List.append_nil]
  have hended : ∀ t', Ended s'.log t' ↔ Ended s.log t' ∨ t' = t := fun t' => by
    rw [hlog, ended_append, ended_singleton, hends, Option.some.injEq, eq_comm (a := t)]
  have hpc' : ∀ t', t' ≠ t → s'.pc t' = s.pc t' := fun t' ht' => by rw [hpc, Function.update_of_ne ht']
  have htab : (s.pc t).tab ≠ some tab ∧ (s'.pc t).tab ≠ some tab := by
    rw [hpc, Function.update_self, hpct, hx]
    exact ⟨nofun, nofun⟩
  refine h.of_same (by rw [hf]) hentries ?_
  by_cases htt : t₀ = t
  · subst htt
    obtain ⟨hkept, hnolog⟩ := howner hist
    refine ⟨X ++ U, [], [], [], t₀, hist.finish hentries (fun e he => (hended _).mpr ?_) hkept ?_ ?_ hnolog ?_⟩
    · rcases List.mem_append.mp he with he | he
      · exact Or.inl (hist.ended e he)
      · exact Or.inr (hist.own e he)
    · rw [hws, Function.update_self]
      rfl
    · intro t' ht'
      rw [hws, Function.update_of_ne ht']
    · intro t'
      by_cases ht' : t' = t₀
      · exact Or.inr (ht' ▸ htab)
      · exact Or.inl (hpc' t' ht')
  · refine ⟨X, U, V, W, t₀, hist.of_same hentries (fun e _ he => (hended _).mpr (Or.inl he)) ?_ ?_ ?_ ?_⟩
    · intro _ hne
      rw [hended]
      exact fun hor => hor.elim hne htt
    · rw [hlog]
      refine kept_concat fun t' ht' e he het => hnot ?_
      rw [ht', LogRecord.ends, Option.some.injEq] at hends
      rw [← hends, ← het]
      exact hist.ended e he
    · intro t'
      rw [hws]
      by_cases ht' : t' = t
      · subst ht'
        rw [Function.update_self, hist.others t' (Ne.symm htt)]
        rfl
      · rw [Function.update_of_ne ht']
    · intro t'
      by_cases ht' : t' = t
      · exact Or.inr (ht' ▸ ⟨Ne.symm htt, htab⟩)
      · exact Or.inl (Or.inl (hpc' t' ht'))

/-- A transaction that commits has rolled nothing back. -/
theorem TableHist.commit {m₀ m : Rid → Option Bytes} {X U : List (TxnId × Rid × Change Bytes)}
    {V W : List (Rid × Change Bytes)} (hist : TableHist s tab m₀ m X U V W t) (hs : Sane s) (ht : s.pc t = .running) :
    kept (s.log ++ [.commit t]) (X ++ U) = kept s.log X ++ V ∧ ∀ t' rid c, s.pc t' ≠ .logged tab rid c := by
  obtain rfl : W = [] := by_contra fun hW => by
    have hab := hist.rolled hW
    rw [ht] at hab
    cases hab
  have hV : U.map Prod.snd = V := hist.parts.trans (List.append_nil _)
  constructor
  · have hkept : kept (s.log ++ [.commit t]) (X ++ U) = kept s.log (X ++ U) := kept_concat nofun
    rw [hkept, kept_append, ← hV]
    congr 1
    unfold kept
    rw [List.filter_eq_self.mpr]
    intro e he
    rw [decide_eq_true_iff]
    intro hab
    exact hist.unended (List.ne_nil_of_mem he) (hist.own e he ▸ ended_of_aborted hab)
  · intro t' rid c ht'
    -- whoever is in the middle of an operation holds the lock, and then this one has written nothing
    obtain ⟨V', rfl, -⟩ := hist.logged t' rid c ht'
    have hmem : writeOf tab (rid, c) ∈ writesTo tab (s.writeSet t) := by
      rw [hist.writes]
      simp
    have hx := hs.holds t _ (List.mem_filter.mp hmem).1
    rw [tabName_writeOf] at hx
    have hpend : (s.pc t').tab = some tab := by rw [ht']; rfl
    obtain rfl := hs.pending_unique hx hpend
    rw [ht] at ht'
    cases ht'

/-- A transaction that ends its rollback has rolled everything back. -/
theorem TableHist.abort {m₀ m : Rid → Option Bytes} {X U : List (TxnId × Rid × Change Bytes)}
    {V W : List (Rid × Change Bytes)} (hist : TableHist s tab m₀ m X U V W t) (hnot : ¬ Ended s.log t)
    (hws : s.writeSet t = []) :
    kept (s.log ++ [.abort t]) (X ++ U) = kept s.log X ++ V ∧ ∀ t' rid c, s.pc t' ≠ .logged tab rid c := by
  obtain rfl : V = [] := by
    have hwrites := hist.writes
    rw [hws] at hwrites
    exact List.map_eq_nil_iff.mp (List.reverse_eq_nil_iff.mp hwrites.symm)
  constructor
  · have hU : kept (s.log ++ [.abort t]) U = [] := by
      unfold kept
      rw [List.filter_eq_nil_iff.mpr, List.map_nil]
      intro e he
      rw [hist.own e he, decide_eq_true_iff, not_not]
      exact List.mem_filterMap.mpr ⟨.abort t, List.mem_append_right _ List.mem_cons_self, rfl⟩
    rw [kept_append, hU]
    congr 1
    refine kept_concat fun t' ht' e he het => hnot ?_
    obtain rfl := LogRecord.abort.inj ht'
    exact het ▸ hist.ended e he
  · intro t' rid c ht'
    obtain ⟨V', hV', -⟩ := hist.logged t' rid c ht'
    simp at hV'

/-- An executor appends to the log, after its change or before it. -/
theorem TableIn.append {rid : Rid} {c : Change Bytes} {x : Pc} {X U : List (TxnId × Rid × Change Bytes)}
    {V : List (Rid × Change Bytes)} (h : TableIn f₀ s tab f) (hs : Sane s) (happ : Appends s e t tab)
    (hist : TableHist s tab f₀.records f.records X U V [] t)
    (hc : c.Valid (replayAt apply f₀.records (kept s.log X ++ V) rid)) (hrid : RidOk f₀.numRecordsPerPage rid)
    (hf : s'.tables = s.tables) (hlog : s'.log = s.log ++ [recordOf t tab rid c])
    (hws : s'.writeSet = Function.update s.writeSet t (writeOf tab (rid, c) :: s.writeSet t))
    (hpc : s'.pc = Function.update s.pc t x)
    (hx : x.tab ≠ some tab ∧ f.records = replayAt apply f₀.records (kept s.log X ++ (V ++ [(rid, c)])) ∨
      x = .logged tab rid c ∧ f.records = replayAt apply f₀.records (kept s.log X ++ V)) : TableIn f₀ s' tab f := by
  have hentries : entries tab s'.log = entries tab s.log ++ [(t, rid, c)] := by
    rw [hlog, entries_concat, entry_recordOf, if_pos rfl]
    rfl
  refine ⟨by rw [hf]; exact h.file, h.pages, h.per, h.grows, h.first, ?_, X, U ++ [(t, rid, c)],
    V ++ [(rid, c)], [], t, hist.append hentries ?_ ?_ (happ.not_ended hs) hc hws ?_ ?_⟩
  · intro e he
    rw [hentries] at he
    rcases List.mem_append.mp he with he | he
    · exact h.rids e he
    · rw [List.mem_singleton.mp he]
      exact hrid
  · intro t'
    rw [hlog, ended_append, ended_singleton, ends_recordOf]
    simp
  · rw [hlog]
    refine kept_concat ?_
    intro t' ht'
    cases c <;> cases ht'
  · rw [hpc]
    exact hs.only (happ.holdsX hs)
  · rw [hpc, Function.update_self]
    exact hx

/-- An executor appends to the log first. -/
theorem TableIn.logging {rid : Rid} {c : Change Bytes} (h : TableIn f₀ s tab f) (hs : Sane s) (happ : Appends s e t tab)
    (hno : NoOverlap s e) (hpc : s.pc t = .running) (hc : c.Valid (f.records rid)) (hrid : RidOk f₀.numRecordsPerPage rid)
    (hf : s'.tables = s.tables) (hlog : s'.log = s.log ++ [recordOf t tab rid c])
    (hws : s'.writeSet = Function.update s.writeSet t (writeOf tab (rid, c) :: s.writeSet t))
    (hpc' : s'.pc = Function.update s.pc t (.logged tab rid c)) : TableIn f₀ s' tab f := by
  obtain ⟨X, U, V, hist⟩ := h.hist.owner hs happ hno
  have hm := hist.rest fun t' ht' => by
    obtain rfl := hs.pending_unique (happ.holdsX hs) ht'
    rw [hpc] at ht'
    cases ht'
  exact h.append hs happ hist (hm ▸ hc) hrid hf hlog hws hpc' (Or.inr ⟨rfl, hm⟩)

/-- It makes its change. -/
theorem TableIn.making {rid : Rid} {c : Change Bytes} (h : TableIn f₀ s tab f) (hs : Sane s)
    (hpc : s.pc t = .logged tab rid c) (hf : s'.tables tab = some f') (hlog : s'.log = s.log)
    (hws : s'.writeSet = s.writeSet) (hpc' : s'.pc = Function.update s.pc t .running)
    (hch : c.Valid (f.records rid) → Changed f f' rid (c.apply (f.records rid))) : TableIn f₀ s' tab f' := by
  obtain ⟨X, U, V, W, t₀, hist⟩ := h.hist
  obtain ⟨V', rfl, hm⟩ := hist.logged t rid c hpc
  have hvalid := hist.valid
  rw [hist.parts, List.append_assoc V', ← List.append_assoc, validAt_append] at hvalid
  have hchanged := hch (hm ▸ hvalid.2.1)
  refine h.of_changed hf hchanged (by rw [hlog]) ⟨X, U, V' ++ [(rid, c)], W, t₀, hist.settle hlog hws ?_ ?_ ?_⟩
  · intro hab
    rw [hpc', Function.update_of_ne, hab]
    rintro rfl
    rw [hpc] at hab
    cases hab
  · intro t' ht'
    by_cases htt : t' = t
    · rw [htt, hpc', Function.update_self] at ht'
      cases ht'
    · rw [hpc'] at ht'
      exact hs.only (hs.active t tab (by rw [hpc]; rfl)) t' htt ht'
  · rw [← List.append_assoc, replayAt_concat, ← hm]
    exact hchanged.records

theorem writesTo_cons_of_ne {w : WriteRecord} (h : w.tabName ≠ tab) (ws : List WriteRecord) :
    writesTo tab (w :: ws) = writesTo tab ws := List.filter_cons_of_neg (by simpa using h)

theorem writesTo_update {ws : TxnId → List WriteRecord} {l : List WriteRecord} (h : writesTo tab l = writesTo tab (ws t))
    (t' : TxnId) : writesTo tab (Function.update ws t l t') = writesTo tab (ws t') := by
  by_cases ht : t' = t
  · subst ht
    rw [Function.update_self, h]
  · rw [Function.update_of_ne ht]

/-- Another table is worked on. -/
theorem TableIn.elsewhere {x : Pc} (h : TableIn f₀ s tab f) (hold : (s.pc t).tab ≠ some tab) (hnew : x.tab ≠ some tab)
    (hab : s.pc t ≠ .aborting) (hf : s'.tables tab = s.tables tab) (hlog : SameLog tab s.log s'.log)
    (hws : ∀ t', writesTo tab (s'.writeSet t') = writesTo tab (s.writeSet t'))
    (hpc : s'.pc = Function.update s.pc t x) : TableIn f₀ s' tab f := by
  refine h.frame hf hlog hws ?_
  intro t'
  rw [hpc]
  exact samePc_update (Or.inr ⟨hold, hnew, fun heq => absurd heq hab⟩) t'

/-- An insertion puts its record into the file. -/
theorem TableIn.inserting {rid : Rid} {buf : Bytes} (h : TableIn f₀ s tab f) (hs : Sane s) (hpc : s.pc t = .running)
    (hx : HoldsX (s.locks tab) t) (hrun : f.insertRecord buf = .ok (f', rid)) (hf : s'.tables tab = some f')
    (hlog : s'.log = s.log) (hws : s'.writeSet = s.writeSet)
    (hpc' : s'.pc = Function.update s.pc t (.inserted tab rid buf)) : TableIn f₀ s' tab f' := by
  obtain ⟨hnone, -, hch⟩ := insertRecord_cases h.pages (h.first.trans h.grows) hrun
  obtain ⟨X, U, V, W, t₀, hist⟩ := h.hist
  have hfree : ∀ t', (s.pc t').tab ≠ some tab := by
    intro t' ht'
    obtain rfl := hs.pending_unique hx ht'
    rw [hpc] at ht'
    cases ht'
  exact h.of_changed hf hch (by rw [hlog]) ⟨X, U, V, W, t₀, hist.insert hlog hws hpc hfree hpc' hnone hch.records⟩

/-- It is logged. -/
theorem TableIn.insertLogging {rid : Rid} {buf : Bytes} (h : TableIn f₀ s tab f) (hs : Sane s)
    (hno : NoOverlap s (.insertLog t)) (hpc : s.pc t = .inserted tab rid buf) (hf : s'.tables = s.tables)
    (hlog : s'.log = s.log ++ [.insert t tab rid buf])
    (hws : s'.writeSet = Function.update s.writeSet t (.insert tab rid :: s.writeSet t))
    (hpc' : s'.pc = Function.update s.pc t .running) : TableIn f₀ s' tab f := by
  have happ : Appends s (.insertLog t) t tab := .insertLog hpc
  obtain ⟨X, U, V, hist⟩ := h.hist.owner hs happ hno
  obtain ⟨hnone, hm⟩ := hist.inserted t rid buf hpc
  have hr : f.records rid = some buf := by rw [hm, Function.update_self]
  have hrid : RidOk f₀.numRecordsPerPage rid := h.per ▸ (inFile_of_records hr).ridOk
  refine h.append (c := .insert buf) hs happ hist hnone hrid hf hlog hws hpc' (Or.inl ⟨by simp [Pc.tab], ?_⟩)
  rw [← List.append_assoc, replayAt_concat]
  exact hm

/-- Or the record is deleted again. -/
theorem TableIn.insertFailing {rid : Rid} {buf : Bytes} (h : TableIn f₀ s tab f) (hs : Sane s)
    (hpc : s.pc t = .inserted tab rid buf) (hrun : f.deleteRecord rid = .ok f') (hf : s'.tables tab = some f')
    (hlog : s'.log = s.log) (hws : s'.writeSet = s.writeSet) (hpc' : s'.pc = Function.update s.pc t .running) :
    TableIn f₀ s' tab f' := by
  obtain ⟨X, U, V, W, t₀, hist⟩ := h.hist
  obtain ⟨hnone, hm⟩ := hist.inserted t rid buf hpc
  have hr : f.records rid = some buf := by rw [hm, Function.update_self]
  obtain ⟨f₂, hrun₂, hch⟩ := deleteRecord_spec h.pages hr
  obtain rfl := Except.ok.inj (hrun.symm.trans hrun₂)
  refine h.of_changed hf hch (by rw [hlog]) ⟨X, U, V, W, t₀, hist.settle hlog hws ?_ ?_ ?_⟩
  · intro hab
    rw [hpc', Function.update_of_ne, hab]
    rintro rfl
    rw [hpc] at hab
    cases hab
  · intro t' ht'
    by_cases htt : t' = t
    · rw [htt, hpc', Function.update_self] at ht'
      cases ht'
    · rw [hpc'] at ht'
      exact hs.only (hs.active t tab (by rw [hpc]; rfl)) t' htt ht'
  · rw [hch.records, hm, Function.update_idem, ← hnone, Function.update_eq_self]

/-- A rollback undoes the latest write. -/
theorem TableIn.undoing {w : WriteRecord} {ws : List WriteRecord} (h : TableIn f₀ s w.tabName f) (hs : Sane s)
    (hpc : s.pc t = .aborting) (hw : s.writeSet t = w :: ws) (hrun : f.undoWrite w = .ok f')
    (hf : s'.tables w.tabName = some f') (hlog : s'.log = s.log) (hws : s'.writeSet = Function.update s.writeSet t ws)
    (hpc' : s'.pc = s.pc) : TableIn f₀ s' w.tabName f' := by
  obtain ⟨X, U, V, W, t₀, hist⟩ := h.hist
  have hmem : w ∈ writesTo w.tabName (s.writeSet t) := List.mem_filter.mpr ⟨by simp [hw], by simp⟩
  -- the write is of the transaction with which the history ends
  obtain rfl : t = t₀ := by
    by_contra hne
    rw [hist.others t hne] at hmem
    cases hmem
  have hx := hs.holds t w (by simp [hw])
  have hnone : ∀ t', (s.pc t').tab ≠ some w.tabName := by
    intro t' ht'
    obtain rfl := hs.pending_unique hx ht'
    rw [hpc] at ht'
    cases ht'
  have hm := hist.rest hnone
  obtain ⟨V', ⟨rid, c⟩, rfl, hwx, hwrites, hc⟩ := hist.latest hw rfl
  rw [← List.append_assoc, replayAt_concat] at hm
  have hrid : RidOk f.numRecordsPerPage rid := by
    have hin : (rid, c) ∈ U.map Prod.snd := by
      rw [hist.parts]
      simp
    obtain ⟨e, he, hrc⟩ := List.mem_map.mp hin
    have hridOk := h.rids e (by rw [hist.split]; exact List.mem_append_right _ he)
    rw [hrc] at hridOk
    rw [h.per]
    exact hridOk
  rw [hwx] at hrun
  have hch := undoWrite_spec h.pages hrid hc (by rw [hm, Function.update_self]) hrun
  refine h.of_changed hf hch (by rw [hlog]) ⟨X, U, V', _, t, hist.undo hwrites hpc hnone hlog hws hpc' ?_⟩
  rw [hch.records, hm, Function.update_idem, Function.update_eq_self]

/-- **Every step without overlap keeps the history of a table.** -/
theorem TableIn.step (h : TableIn f₀ s tab f) (hs : Sane s) (hno : NoOverlap s e) (hstep : Step s e s') :
    ∃ f', TableIn f₀ s' tab f' := by
  have hsame : ∀ {r : LogRecord}, LogRecord.entry tab r = none → LogRecord.ends r = none → (∀ t, r ≠ .abort t) →
      SameLog tab s.log (s.log ++ [r]) := fun hentry hends hab =>
    .concat hentry (fun t ht => by rw [hends] at ht; cases ht) hab
  cases hstep with
  | beginTxn hpc =>
    exact ⟨f, h.elsewhere (by simp [hpc, Pc.tab]) (by simp [Pc.tab]) (by simp [hpc]) rfl (hsame rfl rfl nofun)
      (fun _ => rfl) rfl⟩
  | lock _ _ | unlock _ | writePage _ _ => exact ⟨f, h.frame rfl (.refl ..) (fun _ => rfl) fun _ => Or.inl rfl⟩
  | @insertRecord t tab₀ buf f₁ f₁' rid hpc hx hf hrun =>
    by_cases htab : tab₀ = tab
    · subst htab
      obtain rfl := Option.some.inj (hf.symm.trans h.file)
      exact ⟨f₁', h.inserting hs hpc hx hrun (Function.update_self ..) rfl rfl rfl⟩
    · exact ⟨f, h.elsewhere (by simp [hpc, Pc.tab]) (by simp [Pc.tab, htab]) (by simp [hpc])
        (Function.update_of_ne (Ne.symm htab) ..) (.refl ..) (fun _ => rfl) rfl⟩
  | @insertLog t tab₀ rid buf hpc =>
    by_cases htab : tab₀ = tab
    · subst htab
      exact ⟨f, h.insertLogging hs hno hpc rfl rfl rfl rfl⟩
    · exact ⟨f, h.elsewhere (by simp [hpc, Pc.tab, htab]) (by simp [Pc.tab]) (by simp [hpc]) rfl
        (hsame (if_neg htab) rfl nofun) (writesTo_update (writesTo_cons_of_ne (w := .insert tab₀ rid) htab _)) rfl⟩
  | @insertFail t tab₀ rid buf f₁ f₁' hpc hf hrun =>
    by_cases htab : tab₀ = tab
    · subst htab
      obtain rfl := Option.some.inj (hf.symm.trans h.file)
      exact ⟨f₁', h.insertFailing hs hpc hrun (Function.update_self ..) rfl rfl rfl⟩
    · exact ⟨f, h.elsewhere (by simp [hpc, Pc.tab, htab]) (by simp [Pc.tab]) (by simp [hpc])
        (Function.update_of_ne (Ne.symm htab) ..) (.refl ..) (fun _ => rfl) rfl⟩
  | @deleteLog t tab₀ rid f₁ old hpc hx hf hget =>
    by_cases htab : tab₀ = tab
    · subst htab
      obtain rfl := Option.some.inj (hf.symm.trans h.file)
      have hr := records_of_getRecord hget
      have hrid : RidOk f₀.numRecordsPerPage rid := h.per ▸ (inFile_of_records hr).ridOk
      exact ⟨f₁, h.logging (c := .delete old) hs (.deleteLog hpc hx) hno hpc hr hrid rfl rfl rfl rfl⟩
    · exact ⟨f, h.elsewhere (by simp [hpc, Pc.tab]) (by simp [Pc.tab, htab]) (by simp [hpc]) rfl
        (hsame (if_neg htab) rfl nofun) (writesTo_update (writesTo_cons_of_ne (w := .delete tab₀ rid old) htab _)) rfl⟩
  | @deleteRecord t tab₀ rid old f₁ f₁' hpc hf hrun =>
    by_cases htab : tab₀ = tab
    · subst htab
      obtain rfl := Option.some.inj (hf.symm.trans h.file)
      refine ⟨f₁', h.making hs hpc (Function.update_self ..) rfl rfl rfl ?_⟩
      intro hc
      obtain ⟨f₂, hrun₂, hch⟩ := deleteRecord_spec h.pages hc
      exact Except.ok.inj (hrun.symm.trans hrun₂) ▸ hch
    · exact ⟨f, h.elsewhere (by simp [hpc, Pc.tab, htab]) (by simp [Pc.tab]) (by simp [hpc])
        (Function.update_of_ne (Ne.symm htab) ..) (.refl ..) (fun _ => rfl) rfl⟩
  | @updateLog t tab₀ rid buf f₁ old hpc hx hf hget =>
    by_cases htab : tab₀ = tab
    · subst htab
      obtain rfl := Option.some.inj (hf.symm.trans h.file)
      have hr := records_of_getRecord hget
      have hrid : RidOk f₀.numRecordsPerPage rid := h.per ▸ (inFile_of_records hr).ridOk
      exact ⟨f₁, h.logging (c := .update old buf) hs (.updateLog hpc hx) hno hpc hr hrid rfl rfl rfl rfl⟩
    · exact ⟨f, h.elsewhere (by simp [hpc, Pc.tab]) (by simp [Pc.tab, htab]) (by simp [hpc]) rfl
        (hsame (if_neg htab) rfl nofun) (writesTo_update (writesTo_cons_of_ne (w := .update tab₀ rid old) htab _)) rfl⟩
  | @updateRecord t tab₀ rid old new f₁ f₁' hpc hf hrun =>
    by_cases htab : tab₀ = tab
    · subst htab
      obtain rfl := Option.some.inj (hf.symm.trans h.file)
      refine ⟨f₁', h.making hs hpc (Function.update_self ..) rfl rfl rfl ?_⟩
      intro hc
      obtain ⟨f₂, hrun₂, hch⟩ := updateRecord_spec h.pages hc new
      exact Except.ok.inj (hrun.symm.trans hrun₂) ▸ hch
    · exact ⟨f, h.elsewhere (by simp [hpc, Pc.tab, htab]) (by simp [Pc.tab]) (by simp [hpc])
        (Function.update_of_ne (Ne.symm htab) ..) (.refl ..) (fun _ => rfl) rfl⟩
  | @commit t hpc =>
    have hnot : ¬ Ended s.log t := by
      rw [hs.ended, hpc]
      simp
    exact ⟨f, h.terminate hnot (by rw [hpc]; rfl) rfl rfl rfl rfl rfl rfl rfl fun hist => hist.commit hs hpc⟩
  | @abort t hpc | @finish t hpc _ =>
    exact ⟨f, h.elsewhere (by simp [hpc, Pc.tab]) (by simp [Pc.tab]) (by simp [hpc]) rfl (.refl ..) (fun _ => rfl) rfl⟩
  | @undo t w ws f₁ f₁' hpc hw hf hrun =>
    by_cases htab : w.tabName = tab
    · subst htab
      obtain rfl := Option.some.inj (hf.symm.trans h.file)
      exact ⟨f₁', h.undoing hs hpc hw hrun (Function.update_self ..) rfl rfl rfl⟩
    · refine ⟨f, h.frame (Function.update_of_ne (Ne.symm htab) ..) (.refl ..) (writesTo_update ?_) fun _ => Or.inl rfl⟩
      rw [hw, writesTo_cons_of_ne htab]
  | @abortLog t hpc hws _ =>
    have hnot : ¬ Ended s.log t := by
      rw [hs.ended, hpc]
      simp
    refine ⟨f, h.terminate hnot (by rw [hpc]; rfl) rfl rfl rfl rfl rfl ?_ rfl fun hist => hist.abort hnot hws⟩
    rw [← hws, Function.update_eq_self]
  | @commitAgain t hpc =>
    refine ⟨f, h.frame rfl (.concat rfl ?_ fun _ h => by cases h) (fun _ => rfl) fun _ => Or.inl rfl⟩
    intro t' ht'
    obtain rfl := Option.some.inj ht'
    exact (hs.ended t).mpr (Or.inr hpc)

end TableSteps

end Rmdb.Recovery
