import Rmdb.Recovery.Analyze

/-!
# The log manager under failing writes

`LogManager::add_log_to_buffer` serializes a record into the log buffer and hands the
buffer to `DiskManager::write_log`. A write may append a proper prefix of its bytes and
throw; then the buffer keeps what it holds, and the next call hands all of it over again.
The log file is kept as the list of what the writes have appended to it. `persist_lsn_` is
never read, and not modelled.

If a write stops inside a record and a later one appends anything, the bytes behind the
tear are not read as records any more. `returned_reconstructed` says that nothing else goes
wrong: in every run in which nothing is appended after a tear, and whose log stays shorter
than `2 ^ 31` bytes, every record whose call returned is read back.
-/

namespace Rmdb.Recovery

open Lib LogEntry

/-- `LogManager` and the log file. -/
structure LogManager where
  /-- What each `write_log` has appended to the file. -/
  writes : List Bytes
  /-- `log_buffer_`: its first `offset_` bytes. -/
  buffer : Bytes
  /-- `global_lsn_`. -/
  globalLsn : Int32
  /-- `initialized_`. -/
  initialized : Bool

/-- What ends a scan in another way than a return. -/
inductive ScanError where
  /-- `InternalError("unknown log record type")`. -/
  | unknownType
  /-- A read outside the bytes of a record, or of a negative number of bytes. -/
  | outside
  /-- `assert(bytes_read == size)`. -/
  | assertion
deriving DecidableEq

/-- Where `initialize_lsn` is. At a negative offset `lseek` fails, and `read` reads where the last one has ended. -/
structure LogCursor where
  /-- `offset`. -/
  offset : ℤ
  /-- The position of `log_fd_`. -/
  pos : ℕ
deriving DecidableEq

/-- `read_log` with the position of `log_fd_`: the bytes and the position after them, or `-1` (`none`). -/
def readLogAt (file : Bytes) (size : ℤ) (s : LogCursor) : Except ScanError (Option (Bytes × ℕ)) :=
  if getFileSize file < s.offset then .ok none
  else
    let size := min size (intOf (getFileSize file - s.offset))
    if size = 0 then .ok (some ([], s.pos))
    else
      let pos := if 0 ≤ s.offset then s.offset.toNat else s.pos
      let bytes := (file.drop pos).take size.toNat
      if (bytes.length : ℤ) = size then .ok (some (bytes, pos + bytes.length)) else .error .assertion

/-- What becomes of a `write_log`. -/
inductive WriteResult where
  /-- All bytes are written. -/
  | done
  /-- At most so many bytes are written, not all, and it throws. -/
  | fails (written : ℕ)

namespace LogManager

/-- The log file. -/
def file (lm : LogManager) : Bytes := lm.writes.flatten

/-- The loop of `initialize_lsn`, in at most so many rounds: the largest `lsn_` that it has read where it ends. -/
def maxLsnLoop (file : Bytes) : ℕ → LogCursor → Int32 → Int32
  | 0, _, maxLsn => maxLsn
  | bound + 1, s, maxLsn =>
    if intOf (s.offset + LOG_HEADER_SIZE) ≤ getFileSize file then
      match readLogAt file LOG_HEADER_SIZE s with
      | .ok (some (header, pos)) =>
        if header.length ≠ LOG_HEADER_SIZE then maxLsn
        else match readWord header OFFSET_LOG_TOT_LEN, readInt32 header OFFSET_LSN with
          | some length, some lsn =>
            if length.toNat < LOG_HEADER_SIZE ∨ getFileSize file < intOf (s.offset + intOf length.toNat) then maxLsn
            else maxLsnLoop file bound ⟨intOf (s.offset + length.toNat), pos⟩ (max maxLsn lsn)
          | _, _ => maxLsn
      | _ => maxLsn
    else maxLsn

/-- `initialize_lsn`. -/
def initializeLsn (lm : LogManager) : LogManager :=
  if lm.initialized then lm
  else { lm with
    initialized := true
    globalLsn := maxLsnLoop lm.file (lm.file.length + 1) ⟨0, 0⟩ (-1) + 1 }

/-- `flush_log_to_disk_unlocked`: the log manager after it, and whether it returned. -/
def flushLogToDiskUnlocked (lm : LogManager) (w : WriteResult) : LogManager × Bool :=
  if lm.buffer = [] then (lm, true)
  else match w with
    | .done => ({ lm with writes := lm.writes ++ [lm.buffer], buffer := [] }, true)
    | .fails n => ({ lm with writes := lm.writes ++ [lm.buffer.dropLast.take n] }, false)

/-- `serialize` into the buffer, with the next sequence number. -/
def append (lm : LogManager) (r : LogEntry) : LogManager :=
  { lm with
    globalLsn := lm.globalLsn + 1
    buffer := lm.buffer ++ bytes { r with lsn := lm.globalLsn } }

/-- `add_log_to_buffer`: the log manager after it, and the record if it returned. The flush of a full buffer and the one
at the end do as `first` and `second` say. -/
def addLogToBuffer (lm : LogManager) (r : LogEntry) (first second : WriteResult) : LogManager × Option LogEntry :=
  if LOG_BUFFER_SIZE < r.logTotLen.toNat then (lm, none)
  else
    let lm := lm.initializeLsn
    let (lm, room) := if LOG_BUFFER_SIZE < lm.buffer.length + r.logTotLen.toNat then lm.flushLogToDiskUnlocked first
      else (lm, true)
    if room then
      let (lm', done) := (lm.append r).flushLogToDiskUnlocked second
      (lm', if done then some { r with lsn := lm.globalLsn } else none)
    else (lm, none)

/-- A call of `add_log_to_buffer`, and what becomes of its writes. -/
structure Call where
  /-- The record. -/
  record : LogEntry
  /-- The flush of a full buffer. -/
  first : WriteResult
  /-- The flush at the end. -/
  second : WriteResult

/-- A sequence of calls: the log manager after them, and the records whose calls returned. -/
def run (lm : LogManager) : List Call → LogManager × List LogEntry
  | [] => (lm, [])
  | c :: calls =>
    let (lm, out) := lm.addLogToBuffer c.record c.first c.second
    let (lm, outs) := run lm calls
    (lm, out.toList ++ outs)

/-- A log manager on a file of whole records. -/
def opened (rs : List LogEntry) : LogManager := ⟨[logFile rs], [], 0, false⟩

/-- The bytes are those of whole records. -/
def Whole (bs : Bytes) : Prop := ∃ rs, (∀ r ∈ rs, LogEntry.Ok r) ∧ bs = logFile rs

/-- After a write that stopped inside a record, nothing more was written. -/
def TornLast (writes : List Bytes) : Prop := ∀ A b B, writes = A ++ b :: B → ¬ Whole b → ∀ c ∈ B, c = []

/-! ### What a run keeps -/

/-- The file holds the records `R`, and behind them the bytes `t`, a beginning of what is in the buffer: the records `T`.
If there are such bytes, a write has been torn. -/
structure Keeps (lm : LogManager) (R T : List LogEntry) (t : Bytes) : Prop where
  ok : ∀ r ∈ R ++ T, LogEntry.Ok r
  file : lm.file = logFile R ++ t
  buffer : lm.buffer = logFile T
  rest : t <+: logFile T
  torn : t = [] ∨ ∃ b ∈ lm.writes, ¬ Whole b

theorem logFile_append (A B : List LogEntry) : logFile (A ++ B) = logFile A ++ logFile B := List.flatMap_append

theorem logFile_eq_nil {T : List LogEntry} (h : logFile T = []) : T = [] := by
  cases T with
  | nil => rfl
  | cons r T =>
    have hlen := congrArg List.length h
    rw [length_logFile, total_cons] at hlen
    have := header_le_size r
    rw [LOG_HEADER_SIZE] at this
    simp at hlen
    omega

theorem TornLast.mono {A B : List Bytes} (h : TornLast B) (hAB : A <+: B) : TornLast A := by
  obtain ⟨C, rfl⟩ := hAB
  rintro A₁ x A₂ rfl hx c hc
  exact h A₁ x (A₂ ++ C) (by simp) hx c (by simp [hc])

/-- After a tear nothing is written. -/
theorem TornLast.eq_nil {A : List Bytes} {b : Bytes} (h : TornLast (A ++ [b])) (hA : ∃ x ∈ A, ¬ Whole x) : b = [] := by
  obtain ⟨x, hx, hw⟩ := hA
  obtain ⟨A₁, A₂, rfl⟩ := List.append_of_mem hx
  exact h A₁ x (A₂ ++ [b]) (by simp) hw b (by simp)

/-! ### The file only grows -/

theorem writes_initializeLsn (lm : LogManager) : lm.initializeLsn.writes = lm.writes := by
  unfold initializeLsn
  split <;> rfl

theorem writes_flush (lm : LogManager) (w : WriteResult) : lm.writes <+: (lm.flushLogToDiskUnlocked w).1.writes := by
  unfold flushLogToDiskUnlocked
  split
  · exact List.prefix_rfl
  · cases w <;> exact List.prefix_append _ _

theorem writes_addLogToBuffer (lm : LogManager) (r : LogEntry) (first second : WriteResult) :
    lm.writes <+: (lm.addLogToBuffer r first second).1.writes := by
  unfold addLogToBuffer
  split
  · exact List.prefix_rfl
  · have hinit := writes_initializeLsn lm
    rcases hfirst : (if LOG_BUFFER_SIZE < lm.initializeLsn.buffer.length + r.logTotLen.toNat then
      lm.initializeLsn.flushLogToDiskUnlocked first else (lm.initializeLsn, true)) with ⟨lm₁, room⟩
    have hgrow : lm.writes <+: lm₁.writes := by
      split at hfirst
      · have := writes_flush lm.initializeLsn first
        rwa [hfirst, hinit] at this
      · rw [← (Prod.mk.inj hfirst).1, hinit]
    simp only [hfirst]
    cases room with
    | false => exact hgrow
    | true => exact hgrow.trans (writes_flush (lm₁.append r) second)

theorem writes_run : ∀ (calls : List Call) (lm : LogManager), lm.writes <+: (lm.run calls).1.writes
  | [], _ => List.prefix_rfl
  | c :: calls, lm => (writes_addLogToBuffer lm c.record c.first c.second).trans (writes_run calls _)

/-! ### What the steps keep -/

section Steps

variable {lm : LogManager} {R T : List LogEntry} {t : Bytes}

/-- A write of a beginning of the buffer. -/
theorem Keeps.write (h : lm.Keeps R T t) {b : Bytes} (hb : b <+: lm.buffer) (htorn : TornLast (lm.writes ++ [b])) :
    ∃ R' t', Keeps { lm with writes := lm.writes ++ [b] } R' T t' ∧ R <+: R' := by
  have hfile : LogManager.file { lm with writes := lm.writes ++ [b] } = logFile R ++ t ++ b := by
    rw [← h.file]
    simp [LogManager.file]
  by_cases htear : ∃ x ∈ lm.writes, ¬ Whole x
  · -- after a tear nothing is written
    obtain rfl := htorn.eq_nil htear
    obtain ⟨x, hx, hw⟩ := htear
    exact ⟨R, t, ⟨h.ok, by simpa using hfile, h.buffer, h.rest, Or.inr ⟨x, by simp [hx], hw⟩⟩, List.prefix_rfl⟩
  · obtain rfl := h.torn.resolve_right htear
    by_cases hw : Whole b
    · obtain ⟨rs, hrs, rfl⟩ := hw
      refine ⟨R ++ rs, [], ⟨?_, ?_, h.buffer, List.nil_prefix, Or.inl rfl⟩, List.prefix_append _ _⟩
      · intro r hr
        rcases List.mem_append.mp hr with hr | hr
        · rcases List.mem_append.mp hr with hr | hr
          · exact h.ok r (by simp [hr])
          · exact hrs r hr
        · exact h.ok r (by simp [hr])
      · rw [hfile, logFile_append]
        simp
    · refine ⟨R, b, ⟨h.ok, by simpa using hfile, h.buffer, h.buffer ▸ hb, Or.inr ⟨b, by simp, hw⟩⟩, List.prefix_rfl⟩

/-- A flush that returns has put the buffer into the file. -/
theorem Keeps.flush (h : lm.Keeps R T t) {w : WriteResult} {lm' : LogManager} {done : Bool}
    (hrun : lm.flushLogToDiskUnlocked w = (lm', done)) (htorn : TornLast lm'.writes) :
    ∃ R' T' t', lm'.Keeps R' T' t' ∧ (∀ r ∈ R, r ∈ R') ∧ (done = true → ∀ r ∈ T, r ∈ R') := by
  unfold flushLogToDiskUnlocked at hrun
  split at hrun
  · rename_i hnil
    obtain ⟨rfl, rfl⟩ := Prod.mk.inj hrun
    obtain rfl : T = [] := logFile_eq_nil (h.buffer.symm.trans hnil)
    exact ⟨R, [], t, h, fun r hr => hr, fun _ => by simp⟩
  · rename_i hne
    cases w with
    | done =>
      obtain ⟨rfl, rfl⟩ := Prod.mk.inj hrun
      have hclean : ¬ ∃ x ∈ lm.writes, ¬ Whole x := fun hx => hne (htorn.eq_nil hx)
      obtain rfl := h.torn.resolve_right hclean
      refine ⟨R ++ T, [], [], ⟨by simpa using h.ok, ?_, rfl, List.nil_prefix, Or.inl rfl⟩, by simp +contextual,
        fun _ => by simp +contextual⟩
      have hfile := h.file
      rw [List.append_nil, LogManager.file] at hfile
      simp [LogManager.file, hfile, h.buffer, logFile_append]
    | fails n =>
      obtain ⟨rfl, rfl⟩ := Prod.mk.inj hrun
      have hpre : lm.buffer.dropLast.take n <+: lm.buffer := (List.take_prefix _ _).trans (List.dropLast_prefix _)
      obtain ⟨R', t', hkeep, hR⟩ := h.write hpre htorn
      exact ⟨R', T, t', hkeep, fun r hr => hR.subset hr, nofun⟩

theorem Keeps.of_eq {lm' : LogManager} (h : lm.Keeps R T t) (hwrites : lm'.writes = lm.writes)
    (hbuffer : lm'.buffer = lm.buffer) : lm'.Keeps R T t := by
  refine ⟨h.ok, ?_, hbuffer.trans h.buffer, h.rest, hwrites ▸ h.torn⟩
  rw [LogManager.file, hwrites]
  exact h.file

theorem Keeps.initializeLsn (h : lm.Keeps R T t) : lm.initializeLsn.Keeps R T t := by
  refine h.of_eq (writes_initializeLsn lm) ?_
  unfold LogManager.initializeLsn
  split <;> rfl

theorem ok_with_lsn {r : LogEntry} (hr : LogEntry.Ok r) (lsn : Int32) : LogEntry.Ok { r with lsn := lsn } :=
  ⟨hr.built, hr.short⟩

theorem Keeps.append (h : lm.Keeps R T t) {r : LogEntry} (hr : LogEntry.Ok r) :
    (lm.append r).Keeps R (T ++ [{ r with lsn := lm.globalLsn }]) t := by
  refine ⟨?_, h.file, ?_, ?_, h.torn⟩
  · intro r' hr'
    rw [← List.append_assoc] at hr'
    rcases List.mem_append.mp hr' with hr' | hr'
    · exact h.ok r' hr'
    · exact List.mem_singleton.mp hr' ▸ ok_with_lsn hr _
  · rw [logFile_append, ← h.buffer]
    simp [LogManager.append, logFile]
  · rw [logFile_append]
    exact h.rest.trans (List.prefix_append _ _)

/-- The length of the record fits its field. -/
def Built (r : LogEntry) : Prop := r.logTotLen.toNat = r.size

theorem Built.ok {r : LogEntry} (h : Built r) (hlen : ¬ LOG_BUFFER_SIZE < r.logTotLen.toNat) : LogEntry.Ok r :=
  ⟨by rw [← h, UInt32.ofNat_toNat], by rw [← h]; omega⟩

/-- One call. -/
theorem Keeps.addLogToBuffer (h : lm.Keeps R T t) {r : LogEntry} (hr : Built r) {first second : WriteResult}
    {lm' : LogManager} {out : Option LogEntry} (hrun : lm.addLogToBuffer r first second = (lm', out))
    (htorn : TornLast lm'.writes) : ∃ R' T' t', lm'.Keeps R' T' t' ∧ (∀ x ∈ R, x ∈ R') ∧ ∀ x ∈ out, x ∈ R' := by
  unfold LogManager.addLogToBuffer at hrun
  split at hrun
  · obtain ⟨rfl, rfl⟩ := Prod.mk.inj hrun
    exact ⟨R, T, t, h, fun x hx => hx, nofun⟩
  · rename_i hlen
    have hok := hr.ok hlen
    -- the buffer is flushed first if the record does not fit
    rcases hfirst : (if LOG_BUFFER_SIZE < lm.initializeLsn.buffer.length + r.logTotLen.toNat then
      lm.initializeLsn.flushLogToDiskUnlocked first else (lm.initializeLsn, true)) with ⟨lm₁, room⟩
    simp only [hfirst] at hrun
    have hstep : TornLast lm₁.writes → ∃ R' T' t', lm₁.Keeps R' T' t' ∧ ∀ x ∈ R, x ∈ R' := by
      intro htorn₁
      split at hfirst
      · obtain ⟨R', T', t', hk, hR, -⟩ := h.initializeLsn.flush hfirst htorn₁
        exact ⟨R', T', t', hk, hR⟩
      · obtain ⟨rfl, rfl⟩ := Prod.mk.inj hfirst
        exact ⟨R, T, t, h.initializeLsn, fun x hx => hx⟩
    cases room with
    | false =>
      simp only [Bool.false_eq_true, if_false, Prod.mk.injEq] at hrun
      obtain ⟨rfl, rfl⟩ := hrun
      obtain ⟨R', T', t', hk, hR⟩ := hstep htorn
      exact ⟨R', T', t', hk, hR, nofun⟩
    | true =>
      rcases hsecond : (lm₁.append r).flushLogToDiskUnlocked second with ⟨lm₂, done⟩
      simp only [if_true, hsecond, Prod.mk.injEq] at hrun
      obtain ⟨rfl, rfl⟩ := hrun
      have hgrow := writes_flush (lm₁.append r) second
      rw [hsecond] at hgrow
      obtain ⟨R₁, T₁, t₁, hk₁, hR₁⟩ := hstep (htorn.mono hgrow)
      obtain ⟨R₂, T₂, t₂, hk₂, hR₂, hdone⟩ := (hk₁.append hok).flush hsecond htorn
      refine ⟨R₂, T₂, t₂, hk₂, fun x hx => hR₂ x (hR₁ x hx), ?_⟩
      intro x hx
      cases done with
      | false => cases hx
      | true =>
        obtain rfl : _ = x := by simpa using hx
        exact hdone rfl _ (by simp)

end Steps

/-- A sequence of calls. -/
theorem Keeps.run : ∀ {calls : List Call} {lm : LogManager} {R T : List LogEntry} {t : Bytes}, lm.Keeps R T t →
    (∀ c ∈ calls, Built c.record) → TornLast (lm.run calls).1.writes →
    ∃ R' T' t', (lm.run calls).1.Keeps R' T' t' ∧ (∀ x ∈ R, x ∈ R') ∧ ∀ x ∈ (lm.run calls).2, x ∈ R'
  | [], _, R, T, t, h, _, _ => ⟨R, T, t, h, fun _ hx => hx, nofun⟩
  | c :: calls, lm, R, T, t, h, hbuilt, htorn => by
    rcases hcall : lm.addLogToBuffer c.record c.first c.second with ⟨lm₁, out⟩
    simp only [LogManager.run, hcall] at htorn ⊢
    obtain ⟨R₁, T₁, t₁, hk₁, hR₁, hout⟩ := h.addLogToBuffer (hbuilt c List.mem_cons_self) hcall
      (htorn.mono (writes_run calls lm₁))
    obtain ⟨R₂, T₂, t₂, hk₂, hR₂, houts⟩ := hk₁.run (fun c' hc' => hbuilt c' (List.mem_cons_of_mem _ hc')) htorn
    refine ⟨R₂, T₂, t₂, hk₂, fun x hx => hR₂ x (hR₁ x hx), ?_⟩
    intro x hx
    rcases List.mem_append.mp hx with hx | hx
    · exact hR₂ x (hout x (Option.mem_toList.mp hx))
    · exact houts x hx

theorem keeps_opened {rs : List LogEntry} (h : ∀ r ∈ rs, LogEntry.Ok r) : (opened rs).Keeps rs [] [] :=
  ⟨by simpa using h, by simp [LogManager.file, opened], rfl, List.nil_prefix, Or.inl rfl⟩

/-- What is in the file is read back. -/
theorem Keeps.analyze {lm : LogManager} {R T : List LogEntry} {t : Bytes} (h : lm.Keeps R T t)
    (hlen : lm.file.length < 2 ^ 31) : ∃ a, analyze lm.file = .ok a ∧ ∀ r ∈ R, r ∈ a.logs := by
  obtain ⟨u, hu⟩ := h.rest
  have hpre : lm.file <+: logFile (R ++ T) := ⟨u, by rw [h.file, logFile_append, ← hu, List.append_assoc]⟩
  have htake : lm.file.take lm.file.length = (logFile (R ++ T)).take lm.file.length := by
    rw [List.take_length, ← List.prefix_iff_eq_take]
    exact hpre
  have hR : total LogEntry.size R ≤ lm.file.length := by
    rw [h.file, List.length_append, length_logFile]
    omega
  refine ⟨_, analyze_eq h.ok hlen (getFileSize_of_lt hlen) le_rfl htake, ?_⟩
  intro r hr
  rw [pushAll_eq, fits_append T hR]
  simp [hr]

/-- **Every record whose call returned is read back**, in every run in which nothing is written after a tear and the log
stays shorter than `2 ^ 31` bytes. -/
theorem returned_reconstructed (rs : List LogEntry) (hrs : ∀ r ∈ rs, LogEntry.Ok r) (calls : List Call)
    (hbuilt : ∀ c ∈ calls, Built c.record) (htorn : TornLast ((opened rs).run calls).1.writes)
    (hlen : ((opened rs).run calls).1.file.length < 2 ^ 31) :
    ∃ a, Recovery.analyze ((opened rs).run calls).1.file = .ok a ∧ ∀ r ∈ ((opened rs).run calls).2, r ∈ a.logs := by
  obtain ⟨R, T, t, hk, -, hret⟩ := (keeps_opened hrs).run hbuilt htorn
  obtain ⟨a, ha, hmem⟩ := hk.analyze hlen
  exact ⟨a, ha, fun r hr => hmem r (hret r hr)⟩

/-- The first `BEGIN` record is torn after one byte, the second is written together with it again. -/
def tornCalls : List Call := [⟨beginRecord 0 1, .done, .fails 1⟩, ⟨beginRecord 0 2, .done, .done⟩]

theorem tornCalls_built : ∀ c ∈ tornCalls, Built c.record := by
  intro c hc
  rcases List.mem_pair.mp hc with rfl | rfl
  · rfl
  · rfl

/-- The call for the second record returns, and no record is read back. -/
theorem torn_not_reconstructed :
    (∀ c ∈ tornCalls, Built c.record) ∧ ((opened []).run tornCalls).1.file.length = 41 ∧
      ((opened []).run tornCalls).2 = [beginRecord 1 2] ∧
      Recovery.analyze ((opened []).run tornCalls).1.file = .ok ⟨[], ∅, ∅⟩ ∧
      ¬ ∃ a, Recovery.analyze ((opened []).run tornCalls).1.file = .ok a ∧
        ∀ r ∈ ((opened []).run tornCalls).2, r ∈ a.logs := by
  have hret : ((opened []).run tornCalls).2 = [beginRecord 1 2] := by decide +kernel
  have hnone : Recovery.analyze ((opened []).run tornCalls).1.file = .ok ⟨[], ∅, ∅⟩ := by decide +kernel
  refine ⟨tornCalls_built, by decide +kernel, hret, hnone, ?_⟩
  rintro ⟨a, ha, hmem⟩
  rw [hnone, Except.ok.injEq] at ha
  rw [hret, ← ha] at hmem
  simp at hmem

/-- The first write fails before its first byte; both records are read back once the second one succeeds. -/
theorem returned_reconstructed_retry :
    ∃ a, Recovery.analyze ((opened []).run [⟨beginRecord 0 1, .done, .fails 0⟩, ⟨beginRecord 0 2, .done, .done⟩]).1.file =
        .ok a ∧
      ∀ r ∈ ((opened []).run [⟨beginRecord 0 1, .done, .fails 0⟩, ⟨beginRecord 0 2, .done, .done⟩]).2, r ∈ a.logs := by
  refine returned_reconstructed [] (by simp) [⟨beginRecord 0 1, .done, .fails 0⟩, ⟨beginRecord 0 2, .done, .done⟩] ?_ ?_
    (by decide +kernel)
  · intro c hc
    rcases List.mem_pair.mp hc with rfl | rfl
    · rfl
    · rfl
  · have hwrites : ((opened []).run [⟨beginRecord 0 1, .done, .fails 0⟩, ⟨beginRecord 0 2, .done, .done⟩]).1.writes =
        [logFile [], logFile [], logFile [beginRecord 0 1, beginRecord 1 2]] := by decide +kernel
    rw [hwrites]
    intro A b B hsplit hw
    refine absurd ?_ hw
    have hmem : b ∈ [logFile [], logFile [], logFile [beginRecord 0 1, beginRecord 1 2]] := hsplit ▸ by simp
    simp only [List.mem_cons, List.not_mem_nil, or_false] at hmem
    rcases hmem with rfl | rfl | rfl
    · exact ⟨[], by simp, rfl⟩
    · exact ⟨[], by simp, rfl⟩
    · refine ⟨_, ?_, rfl⟩
      intro r hr
      rcases List.mem_pair.mp hr with rfl | rfl
      · exact beginRecord_ok 0 1
      · exact beginRecord_ok 1 2

end LogManager

end Rmdb.Recovery
