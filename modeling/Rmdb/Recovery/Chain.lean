import Rmdb.Lib.BackLink
import Rmdb.Lib.Trace
import Rmdb.Recovery.LogManager

/-!
# Sequence numbers and the chains of `prev_lsn_`

`begin`, the three executors, `commit` and `abort` append to the log in the same way: they
make a record with the transaction's `prev_lsn_`, call `add_log_to_buffer`, which takes the
latch and numbers the record, and store the number as the new `prev_lsn_`. Between these
three steps other transactions may append any number of records. A transaction belongs to
one session, so its own three steps follow one another.

The server starts with an empty log, since recovery has cleared it. Log writes succeed here.
A transaction is known by its object; the numbers from `next_txn_id_` wrap after `2 ^ 32`
transactions.

`lsn_t` is a signed 32-bit number, and `global_lsn_++` does not look at it. The first record
has the number `0`, so the numbers increase as long as the log has at most `2 ^ 31` records
(`logOrdered_iff`).
-/

namespace Rmdb.Recovery

open Lib LogEntry
open Function (update)

/-! ### The transactions and the log -/

/-- What a transaction is doing to the log. -/
inductive LogPc where
  /-- It does not exist yet. -/
  | unborn
  /-- Nothing. -/
  | idle
  /-- It has made a record and calls `add_log_to_buffer`. -/
  | waiting (record : LogEntry)
  /-- `add_log_to_buffer` has returned. -/
  | returned (lsn : Int32)

/-- The log manager, and the transactions. -/
structure LogSys where
  /-- `LogManager`. -/
  lm : LogManager
  /-- `next_txn_id_`. -/
  nextTxnId : Int32
  /-- `txn_id_` of each transaction. -/
  txnId : ℕ → Int32
  /-- `prev_lsn_` of each transaction. -/
  prevLsn : ℕ → Int32
  /-- Where each transaction is. -/
  pc : ℕ → LogPc

/-- `INVALID_LSN`. -/
def INVALID_LSN : Int32 := -1

/-- What the constructors of the log records and the assignment to `prev_lsn_` make. -/
def makeRecord (logTid prevLsn : Int32) (payload : Payload) : LogEntry :=
  ⟨INVALID_LSN, UInt32.ofNat (size ⟨0, 0, 0, 0, payload⟩), logTid, prevLsn, payload⟩

/-- What a transaction does. -/
inductive LogEvent where
  /-- `begin` makes a transaction and its `BEGIN` record. -/
  | beginTxn (t : ℕ)
  /-- An executor, `commit` or `abort` makes a record. -/
  | make (t : ℕ) (payload : Payload)
  /-- `add_log_to_buffer` holds the latch: it gives the record its number, and the record goes into the file. -/
  | append (t : ℕ) (record : LogEntry)
  /-- `add_log_to_buffer` throws because the record is too long. -/
  | refuse (t : ℕ)
  /-- `set_prev_lsn`. -/
  | setPrevLsn (t : ℕ)

/-- The steps of the transactions. -/
inductive LogStep (s : LogSys) : LogEvent → LogSys → Prop where
  /-- `begin`, up to the call. -/
  | beginTxn {t} : s.pc t = .unborn →
    LogStep s (.beginTxn t) { s with
      nextTxnId := s.nextTxnId + 1
      txnId := update s.txnId t s.nextTxnId
      prevLsn := update s.prevLsn t INVALID_LSN
      pc := update s.pc t (.waiting (makeRecord s.nextTxnId INVALID_LSN .beginTxn)) }
  /-- The other five, up to the call. The length of the record fits its field. -/
  | make {t payload} : s.pc t = .idle → payload ≠ .beginTxn →
    LogManager.Built (makeRecord (s.txnId t) (s.prevLsn t) payload) →
    LogStep s (.make t payload) { s with
      pc := update s.pc t (.waiting (makeRecord (s.txnId t) (s.prevLsn t) payload)) }
  /-- The call. -/
  | append {t r lm r'} : s.pc t = .waiting r → s.lm.addLogToBuffer r .done .done = (lm, some r') →
    LogStep s (.append t r') { s with lm := lm, pc := update s.pc t (.returned r'.lsn) }
  /-- The call, when it throws. -/
  | refuse {t r lm} : s.pc t = .waiting r → s.lm.addLogToBuffer r .done .done = (lm, none) →
    LogStep s (.refuse t) { s with lm := lm, pc := update s.pc t .idle }
  /-- What all six do with the number. -/
  | setPrevLsn {t lsn} : s.pc t = .returned lsn →
    LogStep s (.setPrevLsn t) { s with prevLsn := update s.prevLsn t lsn, pc := update s.pc t .idle }

/-- The server after a start. -/
def LogSys.start : LogSys := ⟨LogManager.opened [], 0, fun _ => 0, fun _ => INVALID_LSN, fun _ => .unborn⟩

/-- The record that a step appends, with its transaction. -/
def LogEvent.appended : LogEvent → Option (ℕ × LogEntry)
  | .append t record => some (t, record)
  | _ => none

/-- The records of a run in the order in which the calls took the latch, with their transactions. -/
def appended (tr : List (LogSys × LogEvent)) : List (ℕ × LogEntry) := tr.filterMap fun x => x.2.appended

/-- The records of a transaction, newest to oldest. -/
def recordsOf (t : ℕ) (calls : List (ℕ × LogEntry)) : List LogEntry :=
  ((calls.filter fun c => c.1 = t).map (·.2)).reverse

/-- **The log is in order**: numbers without gaps in the order of the calls, and one chain for each transaction. -/
structure LogOrdered (s : LogSys) (calls : List (ℕ × LogEntry)) : Prop where
  /-- The file holds the records in the order of the calls. -/
  file : s.lm.file = logFile (calls.map (·.2))
  /-- Each record has the transaction's number. -/
  tid : ∀ c ∈ calls, c.2.logTid = s.txnId c.1
  /-- The sequence numbers go up one by one. -/
  lsns : (calls.map fun c => c.2.lsn.toInt).IsChain fun a b => b = a + 1
  /-- From the last record of a transaction, the links lead through all its records and no others. -/
  chain : ∀ t last, (recordsOf t calls).head? = some last →
    follow LogEntry.lsn LogEntry.prevLsn INVALID_LSN (calls.map (·.2)) calls.length last.lsn = recordsOf t calls
  /-- The chain ends at the transaction's `BEGIN`. -/
  ends : ∀ t first, (recordsOf t calls).getLast? = some first →
    first.payload = .beginTxn ∧ first.prevLsn = INVALID_LSN

/-! ### One call -/

namespace LogManager

/-- A log manager whose buffer is empty, before or after `initialize_lsn`, with `n` records in the file. -/
structure Numbered (lm : LogManager) (n : ℕ) : Prop where
  buffer : lm.buffer = []
  fresh : lm.initialized = false → n = 0 ∧ lm.file = []
  next : lm.initialized = true → lm.globalLsn = Int32.ofNat n

theorem numbered_opened : (opened []).Numbered 0 := ⟨rfl, fun _ => ⟨rfl, rfl⟩, nofun⟩

/-- `initialize_lsn` sets the first number. -/
theorem Numbered.initializeLsn {lm : LogManager} {n : ℕ} (h : lm.Numbered n) :
    lm.initializeLsn = { lm with initialized := true, globalLsn := Int32.ofNat n } := by
  rw [LogManager.initializeLsn]
  split_ifs with hinit
  · rw [← h.next hinit, ← hinit]
  · obtain ⟨rfl, hfile⟩ := h.fresh (Bool.eq_false_iff.mpr hinit)
    rw [hfile]
    rfl

theorem bytes_ne_nil {r : LogEntry} : bytes r ≠ [] := by
  intro hnil
  have hlen := congrArg List.length hnil
  have hsize := header_le_size r
  rw [length_bytes, List.length_nil] at hlen
  rw [LOG_HEADER_SIZE] at hsize
  omega

/-- **A call** with writes that succeed numbers the record and puts it into the file, if it is not too long. -/
theorem Numbered.addLogToBuffer {lm : LogManager} {n : ℕ} (h : lm.Numbered n) (r : LogEntry) :
    if LOG_BUFFER_SIZE < r.logTotLen.toNat then lm.addLogToBuffer r .done .done = (lm, none)
    else ∃ lm', lm.addLogToBuffer r .done .done = (lm', some { r with lsn := Int32.ofNat n }) ∧
      lm'.file = lm.file ++ bytes { r with lsn := Int32.ofNat n } ∧ lm'.Numbered (n + 1) := by
  rw [LogManager.addLogToBuffer]
  split_ifs with hlong
  · rfl
  · have hroom : ¬ LOG_BUFFER_SIZE < ([] : Bytes).length + r.logTotLen.toNat := by
      rwa [List.length_nil, Nat.zero_add]
    have hne : [] ++ bytes { r with lsn := Int32.ofNat n } ≠ [] := bytes_ne_nil
    simp only [h.initializeLsn, h.buffer, hroom, if_false, if_true, LogManager.append, flushLogToDiskUnlocked, hne]
    refine ⟨_, rfl, ?_, rfl, ?_, ?_⟩
    · simp only [LogManager.file, List.flatten_append, List.flatten_singleton, List.nil_append]
    · intro hinit
      cases hinit
    · intro _
      exact (Int32.ofNat_add n 1).symm

end LogManager

/-! ### What a run keeps -/

/-- The number of the newest of a transaction's records. -/
def lastLsn (own : List LogEntry) : Int32 := headKey LogEntry.lsn INVALID_LSN own

/-- The oldest record is a `BEGIN`. -/
def Begun (own : List LogEntry) : Prop := ∃ first, own.getLast? = some first ∧ first.payload = .beginTxn

/-- What a transaction and the record in its hands have to do with its records in the log. -/
def Ready (txnId prevLsn : Int32) (own : List LogEntry) : LogPc → Prop
  | .unborn => own = []
  | .idle => Begun own ∧ prevLsn = lastLsn own
  | .waiting r => (Begun own ∨ own = [] ∧ r.payload = .beginTxn ∧ ¬ LOG_BUFFER_SIZE < r.logTotLen.toNat) ∧
      prevLsn = lastLsn own ∧ r.prevLsn = lastLsn own ∧ r.logTid = txnId
  | .returned lsn => Begun own ∧ lsn = lastLsn own

/-- The log manager, the log and the transactions agree. -/
structure LogSys.Inv (s : LogSys) (calls : List (ℕ × LogEntry)) : Prop where
  numbered : s.lm.Numbered calls.length
  file : s.lm.file = logFile (calls.map (·.2))
  tid : ∀ c ∈ calls, c.2.logTid = s.txnId c.1
  lsns : (calls.map fun c => c.2.lsn) = (List.range calls.length).map Int32.ofNat
  linked : ∀ t, BackLinked LogEntry.lsn LogEntry.prevLsn INVALID_LSN (recordsOf t calls)
  ready : ∀ t, Ready (s.txnId t) (s.prevLsn t) (recordsOf t calls) (s.pc t)

theorem mem_recordsOf {t : ℕ} {calls : List (ℕ × LogEntry)} {r : LogEntry} : r ∈ recordsOf t calls ↔ (t, r) ∈ calls := by
  simp [recordsOf]

theorem recordsOf_concat_self (t : ℕ) (calls : List (ℕ × LogEntry)) (r : LogEntry) :
    recordsOf t (calls ++ [(t, r)]) = r :: recordsOf t calls := by
  simp [recordsOf]

theorem recordsOf_concat_of_ne {t t' : ℕ} (h : t' ≠ t) (calls : List (ℕ × LogEntry)) (r : LogEntry) :
    recordsOf t' (calls ++ [(t, r)]) = recordsOf t' calls := by
  simp [recordsOf, h.symm]

theorem Begun.cons {own : List LogEntry} (h : Begun own) (r : LogEntry) : Begun (r :: own) := by
  obtain ⟨first, hfirst, hpayload⟩ := h
  refine ⟨first, ?_, hpayload⟩
  rw [List.getLast?_cons, hfirst]
  rfl

/-- A `BEGIN` record is never too long. -/
theorem begin_short (logTid prevLsn : Int32) :
    ¬ LOG_BUFFER_SIZE < (makeRecord logTid prevLsn .beginTxn).logTotLen.toNat :=
  show ¬ LOG_BUFFER_SIZE < 20 by decide

/-- A step that only moves one transaction, and not to the log. -/
theorem LogSys.Inv.move {s s' : LogSys} {calls : List (ℕ × LogEntry)} (h : s.Inv calls) (t : ℕ) (hlm : s'.lm = s.lm)
    (htxn : ∀ t', t' ≠ t → s'.txnId t' = s.txnId t' ∧ s'.prevLsn t' = s.prevLsn t' ∧ s'.pc t' = s.pc t')
    (htid : s'.txnId t = s.txnId t ∨ recordsOf t calls = [])
    (hready : Ready (s'.txnId t) (s'.prevLsn t) (recordsOf t calls) (s'.pc t)) : s'.Inv calls := by
  refine ⟨hlm ▸ h.numbered, hlm ▸ h.file, ?_, h.lsns, h.linked, ?_⟩
  · intro c hc
    by_cases hct : c.1 = t
    · rw [h.tid c hc, hct]
      rcases htid with htid | hnil
      · exact htid.symm
      · have hmem : c.2 ∈ recordsOf t calls := mem_recordsOf.mpr (hct ▸ hc)
        rw [hnil] at hmem
        cases hmem
    · rw [h.tid c hc, (htxn _ hct).1]
  · intro t'
    by_cases ht : t' = t
    · rw [ht]
      exact hready
    · obtain ⟨h₁, h₂, h₃⟩ := htxn t' ht
      rw [h₁, h₂, h₃]
      exact h.ready t'

/-- **One step.** -/
theorem LogSys.Inv.step {s s' : LogSys} {e : LogEvent} {calls : List (ℕ × LogEntry)} (h : s.Inv calls)
    (hstep : LogStep s e s') : s'.Inv (calls ++ e.appended.toList) := by
  cases hstep with
  | @beginTxn t hpc =>
    have hnil : recordsOf t calls = [] := by
      have := h.ready t
      rwa [hpc] at this
    simp only [LogEvent.appended, Option.toList_none, List.append_nil]
    refine h.move t rfl (fun t' ht => ⟨?_, ?_, ?_⟩) (.inr hnil) ?_
    · exact Function.update_of_ne ht ..
    · exact Function.update_of_ne ht ..
    · exact Function.update_of_ne ht ..
    · simp only [Function.update_self, hnil]
      exact ⟨.inr ⟨rfl, rfl, begin_short _ _⟩, rfl, rfl, rfl⟩
  | @make t payload hpc hpayload hbuilt =>
    have hready := h.ready t
    rw [hpc] at hready
    simp only [LogEvent.appended, Option.toList_none, List.append_nil]
    refine h.move t rfl (fun t' ht => ⟨rfl, rfl, Function.update_of_ne ht ..⟩) (.inl rfl) ?_
    simp only [Function.update_self]
    exact ⟨.inl hready.1, hready.2, hready.2, rfl⟩
  | @append t r lm r' hpc hcall =>
    obtain ⟨hbegun, hprev, hlink, htid⟩ : Ready _ _ _ (.waiting r) := hpc ▸ h.ready t
    have hspec := h.numbered.addLogToBuffer r
    split_ifs at hspec with hlong
    · rw [hspec] at hcall
      cases hcall
    · obtain ⟨lm', hrun, hfile, hnum⟩ := hspec
      rw [hrun] at hcall
      obtain ⟨rfl, hr'⟩ := Prod.mk.inj hcall
      obtain rfl := Option.some.inj hr'
      simp only [LogEvent.appended, Option.toList_some]
      refine ⟨?_, ?_, ?_, ?_, ?_, ?_⟩
      · rw [List.length_append, List.length_singleton]
        exact hnum
      · rw [hfile, h.file, List.map_append, LogManager.logFile_append]
        simp [logFile]
      · intro c hc
        rcases List.mem_append.mp hc with hc | hc
        · exact h.tid c hc
        · obtain rfl := List.mem_singleton.mp hc
          exact htid
      · rw [List.map_append, h.lsns, List.length_append, List.length_singleton, List.range_succ, List.map_append]
        rfl
      · intro t'
        by_cases ht : t' = t
        · rw [ht, recordsOf_concat_self]
          exact ⟨hlink, h.linked t⟩
        · rw [recordsOf_concat_of_ne ht]
          exact h.linked t'
      · intro t'
        by_cases ht : t' = t
        · subst ht
          rw [recordsOf_concat_self]
          simp only [Function.update_self]
          refine ⟨?_, rfl⟩
          rcases hbegun with hbegun | ⟨hnil, hpayload, -⟩
          · exact hbegun.cons _
          · rw [hnil]
            exact ⟨_, rfl, hpayload⟩
        · rw [recordsOf_concat_of_ne ht]
          simp only [Function.update_of_ne ht]
          exact h.ready t'
  | @refuse t r lm hpc hcall =>
    obtain ⟨hbegun, hprev, -, -⟩ : Ready _ _ _ (.waiting r) := hpc ▸ h.ready t
    have hspec := h.numbered.addLogToBuffer r
    split_ifs at hspec with hlong
    · rw [hspec] at hcall
      obtain ⟨rfl, -⟩ := Prod.mk.inj hcall
      simp only [LogEvent.appended, Option.toList_none, List.append_nil]
      refine h.move t rfl (fun t' ht => ⟨rfl, rfl, Function.update_of_ne ht ..⟩) (.inl rfl) ?_
      simp only [Function.update_self]
      exact ⟨hbegun.resolve_right fun hnil => hnil.2.2 hlong, hprev⟩
    · obtain ⟨lm', hrun, -⟩ := hspec
      rw [hrun] at hcall
      cases hcall
  | @setPrevLsn t lsn hpc =>
    have hready : Ready _ _ _ (.returned lsn) := hpc ▸ h.ready t
    simp only [LogEvent.appended, Option.toList_none, List.append_nil]
    refine h.move t rfl (fun t' ht => ⟨rfl, Function.update_of_ne ht .., Function.update_of_ne ht ..⟩) (.inl rfl) ?_
    simp only [Function.update_self]
    exact hready

theorem inv_start : LogSys.start.Inv [] :=
  ⟨LogManager.numbered_opened, rfl, nofun, rfl, fun _ => trivial, fun _ => rfl⟩

theorem appended_concat (tr : List (LogSys × LogEvent)) (x : LogSys × LogEvent) :
    appended (tr ++ [x]) = appended tr ++ x.2.appended.toList := by
  rw [appended, List.filterMap_append, List.filterMap_cons, List.filterMap_nil]
  cases hx : x.2.appended <;> rfl

/-- **Every run.** -/
theorem inv_run {tr : List (LogSys × LogEvent)} {s : LogSys} (htr : Trace LogStep LogSys.start tr s) :
    s.Inv (appended tr) := by
  induction htr with
  | nil => exact inv_start
  | snoc _ hstep ih =>
    rw [appended_concat]
    exact ih.step hstep

/-! ### Sequence numbers -/

theorem toInt_ofNat {n : ℕ} (h : n < 2 ^ 31) : (Int32.ofNat n).toInt = n := Int32.toInt_ofNat_of_lt h

namespace LogSys.Inv

variable {s : LogSys} {calls : List (ℕ × LogEntry)}

theorem lsn_getElem (h : s.Inv calls) {i : ℕ} (hi : i < calls.length) : calls[i].2.lsn = Int32.ofNat i := by
  have hget := congrArg (·[i]?) h.lsns
  simpa [hi] using hget

/-- The numbers go up as long as they are not negative. -/
theorem lsns_iff (h : s.Inv calls) :
    ((calls.map fun c => c.2.lsn.toInt).IsChain fun a b => b = a + 1) ↔ calls.length ≤ 2 ^ 31 := by
  rw [List.isChain_iff_getElem]
  simp only [List.length_map, List.getElem_map]
  constructor
  · intro hchain
    by_contra hlong
    have hlast := hchain (2 ^ 31 - 1) (by omega)
    rw [h.lsn_getElem, h.lsn_getElem] at hlast
    exact absurd hlast (by decide)
  · intro hshort i hi
    rw [h.lsn_getElem, h.lsn_getElem, toInt_ofNat (by omega), toInt_ofNat (by omega)]
    push_cast
    rfl

theorem nodup (h : s.Inv calls) (hshort : calls.length ≤ 2 ^ 31) : ((calls.map (·.2)).map LogEntry.lsn).Nodup := by
  rw [List.map_map]
  refine h.lsns ▸ (List.nodup_map_iff_inj_on List.nodup_range).mpr ?_
  intro i hi j hj hij
  rw [List.mem_range] at hi hj
  have := congrArg Int32.toInt hij
  rw [toInt_ofNat (by omega), toInt_ofNat (by omega)] at this
  exact_mod_cast this

theorem lsn_ne (h : s.Inv calls) (hshort : calls.length ≤ 2 ^ 31) {r : LogEntry} (hr : r ∈ calls.map (·.2)) :
    r.lsn ≠ INVALID_LSN := by
  obtain ⟨i, hi, rfl⟩ := List.getElem_of_mem hr
  rw [List.length_map] at hi
  rw [List.getElem_map, h.lsn_getElem hi]
  intro hinv
  have := congrArg Int32.toInt hinv
  rw [toInt_ofNat (by omega), show INVALID_LSN.toInt = -1 from rfl] at this
  omega

end LogSys.Inv

/-- **The log of every run**: its records are numbered without gaps in the order of the calls, and the links of each
transaction lead through its records to its `BEGIN`, exactly as long as the numbers fit. -/
theorem logOrdered_iff {tr : List (LogSys × LogEvent)} {s : LogSys} (htr : Trace LogStep LogSys.start tr s) :
    LogOrdered s (appended tr) ↔ (appended tr).length ≤ 2 ^ 31 := by
  have h := inv_run htr
  refine ⟨fun hord => h.lsns_iff.mp hord.lsns, fun hshort => ⟨h.file, h.tid, h.lsns_iff.mpr hshort, ?_, ?_⟩⟩
  · intro t last hlast
    have hsub : ∀ r ∈ recordsOf t (appended tr), r ∈ (appended tr).map (·.2) := fun r hr =>
      List.mem_map.mpr ⟨(t, r), mem_recordsOf.mp hr, rfl⟩
    have hlen : (recordsOf t (appended tr)).length ≤ (appended tr).length := by
      rw [recordsOf, List.length_reverse, List.length_map]
      exact List.length_filter_le ..
    have hwalk := BackLinked.follow_eq (h.nodup hshort) (fun r hr => h.lsn_ne hshort hr) (h.linked t) hsub hlen
    rwa [headKey, hlast] at hwalk
  · intro t first hfirst
    refine ⟨?_, (h.linked t).prev_getLast hfirst⟩
    have hne : recordsOf t (appended tr) ≠ [] := by
      intro hnil
      rw [hnil] at hfirst
      cases hfirst
    have hbegun : Begun (recordsOf t (appended tr)) := by
      have hready := h.ready t
      cases hpc : s.pc t with
      | unborn =>
        rw [hpc] at hready
        exact absurd hready hne
      | idle =>
        rw [hpc] at hready
        exact hready.1
      | waiting r =>
        rw [hpc] at hready
        exact hready.1.resolve_right fun hnil => hne hnil.1
      | returned lsn =>
        rw [hpc] at hready
        exact hready.1
    obtain ⟨first', hfirst', hpayload⟩ := hbegun
    obtain rfl := Option.some.inj (hfirst.symm.trans hfirst')
    exact hpayload

/-- Two transactions; the second one's `COMMIT` takes the latch before the first one's, which has been made before. -/
theorem logOrdered_iff_two : ∃ tr s, Trace LogStep LogSys.start tr s ∧
    (appended tr).map (fun c => (c.1, c.2.lsn.toInt, c.2.prevLsn.toInt)) = [(0, 0, -1), (1, 1, -1), (1, 2, 1), (0, 3, 0)] ∧
      LogOrdered s (appended tr) := by
  have h₁ : Trace LogStep LogSys.start _ _ := Trace.nil.snoc (.beginTxn (t := 0) rfl)
  have h₂ := (h₁.snoc (.append (t := 0) rfl rfl)).snoc (.setPrevLsn (t := 0) rfl)
  have h₃ := ((h₂.snoc (.beginTxn (t := 1) rfl)).snoc (.append (t := 1) rfl rfl)).snoc (.setPrevLsn (t := 1) rfl)
  have hcommit : Payload.commit ≠ .beginTxn := nofun
  have h₄ := (h₃.snoc (.make (t := 0) rfl hcommit rfl)).snoc (.make (t := 1) rfl hcommit rfl)
  have h₅ := h₄.snoc (.append (t := 1) rfl rfl)
  have h₆ := h₅.snoc (.append (t := 0) rfl rfl)
  exact ⟨_, _, h₆, by decide, (logOrdered_iff h₆).mpr (by decide)⟩

/-! ### A long log -/

/-- There are runs with any number of records. -/
theorem exists_run (n : ℕ) : ∃ tr s, Trace LogStep LogSys.start tr s ∧ (appended tr).length = n ∧
    ∀ t, n ≤ t → s.pc t = .unborn := by
  induction n with
  | zero => exact ⟨[], LogSys.start, .nil, rfl, fun _ _ => rfl⟩
  | succ n ih =>
    obtain ⟨tr, s, htr, hlen, hunborn⟩ := ih
    have hbegin := htr.snoc (.beginTxn (hunborn n le_rfl))
    have hspec := (inv_run hbegin).numbered.addLogToBuffer (makeRecord s.nextTxnId INVALID_LSN .beginTxn)
    rw [if_neg (begin_short _ _)] at hspec
    obtain ⟨lm', hcall, -, -⟩ := hspec
    refine ⟨_, _, hbegin.snoc (.append (Function.update_self ..) hcall), ?_, ?_⟩
    · rw [appended_concat, appended_concat, List.length_append, List.length_append, hlen]
      rfl
    · intro t ht
      have hne : t ≠ n := by omega
      simp only [Function.update_of_ne hne]
      exact hunborn t (by omega)

/-- After `2 ^ 31` records the next one has the number `-2 ^ 31`. -/
theorem not_logOrdered : ¬ ∀ tr s, Trace LogStep LogSys.start tr s → LogOrdered s (appended tr) := by
  intro hall
  obtain ⟨tr, s, htr, hlen, -⟩ := exists_run (2 ^ 31 + 1)
  have hshort := (inv_run htr).lsns_iff.mp (hall tr s htr).lsns
  omega

end Rmdb.Recovery
