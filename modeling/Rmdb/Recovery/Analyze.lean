import Rmdb.Recovery.Codec

/-!
# Analyzing a log that is cut off

Records are written one after another, and the file is cut off at any byte. `analyze`
returns the records that lie wholly inside what is left, with the transactions of the
`COMMIT` and of the `ABORT` records among them (`Reconstructs`), exactly when the file is
shorter than `2 ^ 31` bytes (`analyze_reconstructs_iff`): `get_file_size` returns an `int`,
so that a longer file looks empty or shorter than it is.
-/

namespace Rmdb.Recovery

open Lib LogEntry

/-- The log file of records written one after another. -/
def logFile (rs : List LogEntry) : Bytes := rs.flatMap LogEntry.bytes

/-- `analyze` returns these records, and the transactions of their `COMMIT` and `ABORT` records. -/
def Reconstructs (file : Bytes) (rs : List LogEntry) : Prop :=
  ∃ a, analyze file = .ok a ∧ a.logs = rs ∧
    (∀ t, t ∈ a.committedTxns ↔ ∃ r ∈ rs, r.payload = .commit ∧ r.logTid = t) ∧
    ∀ t, t ∈ a.abortedTxns ↔ ∃ r ∈ rs, r.payload = .abort ∧ r.logTid = t

theorem length_logFile (rs : List LogEntry) : (logFile rs).length = total LogEntry.size rs :=
  length_flatMap LogEntry.length_bytes rs

theorem header_le_size (r : LogEntry) : LOG_HEADER_SIZE ≤ r.size := by
  rw [size_eq]
  omega

/-! ### Numbers -/

theorem intOf_of_lt {n : ℕ} (h : n < 2 ^ 31) : intOf n = n := by
  unfold intOf
  rw [Int.bmod_def]
  split <;> omega

theorem intOf_cases (n : ℕ) : intOf n < 0 ∨ ∃ m : ℕ, intOf n = m ∧ m < 2 ^ 31 ∧ (n < 2 ^ 31 ∧ m = n ∨ m + 2 ^ 32 ≤ n) := by
  unfold intOf
  rw [Int.bmod_def]
  split
  · exact Or.inr ⟨n % 2 ^ 32, by omega, by omega, by omega⟩
  · exact Or.inl (by omega)

/-! ### The loop -/

/-- Push several records. -/
def Analysis.pushAll (a : Analysis) (rs : List LogEntry) : Analysis := rs.foldl Analysis.push a

theorem pushAll_eq (a : Analysis) (rs : List LogEntry) :
    a.pushAll rs = ⟨a.logs ++ rs, rs.foldl (note .commit) a.committedTxns, rs.foldl (note .abort) a.abortedTxns⟩ := by
  induction rs generalizing a with
  | nil => simp [Analysis.pushAll]
  | cons r rs ih =>
    have := ih (a.push r)
    simp only [Analysis.pushAll, List.foldl_cons] at this ⊢
    rw [this]
    simp [Analysis.push]

theorem mem_foldl_note (payload : Payload) (t : Int32) (rs : List LogEntry) (txns : Finset Int32) :
    t ∈ rs.foldl (note payload) txns ↔ t ∈ txns ∨ ∃ r ∈ rs, r.payload = payload ∧ r.logTid = t := by
  induction rs generalizing txns with
  | nil => simp
  | cons r rs ih =>
    rw [List.foldl_cons, ih, List.exists_mem_cons_iff, note]
    split
    · rename_i hr
      rw [Finset.mem_insert, eq_comm (a := t)]
      tauto
    · tauto

section Loop

variable {file : Bytes} {m : ℕ}

/-- What `read_log` reads inside the file size. -/
theorem readLog_eq (hfs : getFileSize file = m) {off : ℕ} (hoff : off ≤ m) (n : ℕ) :
    readLog file n off = some (((file.drop off).take (m - off)).take n) := by
  have hlen : (min (n : ℤ) (m - off)).toNat = min n (m - off) := by omega
  rw [readLog, hfs, if_neg (by omega), List.take_take, hlen, Int.toNat_natCast]

/-- The loop stops where less than a header is left. -/
theorem analyzeLoop_short (hfs : getFileSize file = m) {off : ℕ} (hoff : off ≤ m)
    (h : m - off < LOG_HEADER_SIZE) (bound : ℕ) (a : Analysis) : analyzeLoop file (bound + 1) off a = .ok a := by
  rw [analyzeLoop]
  split
  · simp only [readLog_eq hfs hoff]
    rw [if_pos]
    intro hlen
    have := List.length_take_le LOG_HEADER_SIZE ((file.drop off).take (m - off))
    have h2 := List.length_take_le (m - off) (file.drop off)
    rw [List.length_take] at hlen
    omega
  · rfl

/-- One round: it stops at a record that is cut off, and takes one that is not. -/
theorem analyzeLoop_cons (hm : m < 2 ^ 31) (hfs : getFileSize file = m) {off : ℕ} (hoff : off ≤ m) {r : LogEntry}
    (hr : r.Ok) {rest : Bytes} (hfile : (file.drop off).take (m - off) = (r.bytes ++ rest).take (m - off))
    (bound : ℕ) (a : Analysis) :
    analyzeLoop file (bound + 1) off a =
      if r.size ≤ m - off then analyzeLoop file bound ((off + r.size : ℕ) : ℤ) (a.push r) else .ok a := by
  have hheader := header_le_size r
  have hbuf : LOG_BUFFER_SIZE < 2 ^ 31 - 2 ^ 20 := by decide
  have hshort := hr.short
  have hlen : r.logTotLen.toNat = r.size := by
    rw [hr.built]
    exact UInt32.toNat_ofNat_of_lt' (by rw [UInt32.size]; omega)
  by_cases hroom : m - off < LOG_HEADER_SIZE
  · rw [analyzeLoop_short hfs hoff hroom, if_neg (by omega)]
  · -- the header is whole
    have hhead : ((file.drop off).take (m - off)).take LOG_HEADER_SIZE = r.headerBytes := by
      rw [hfile, List.take_take, bytes_eq, min_eq_left (by omega), List.append_assoc,
        List.take_left' (length_headerBytes r)]
    have hcond : intOf ((off : ℤ) + LOG_HEADER_SIZE) ≤ m := by
      rw [← Int.natCast_add, intOf_of_lt (by omega)]
      omega
    obtain ⟨h1, -, h2, -⟩ := readHeader r []
    rw [List.append_nil] at h1 h2
    rw [analyzeLoop, hfs, if_pos hcond]
    simp only [readLog_eq hfs hoff, hhead, length_headerBytes, ne_eq, not_true_eq_false, if_false, h1, h2, hlen,
      LogType.ofCode_code]
    by_cases hfit : r.size ≤ m - off
    · have hbytes : ((file.drop off).take (m - off)).take r.size = r.bytes := by
        rw [hfile, List.take_take, min_eq_left hfit, List.take_left' (length_bytes r)]
      have hint : intOf ((off : ℤ) + r.size) = ((off + r.size : ℕ) : ℤ) := by
        rw [← Int.natCast_add, intOf_of_lt (by omega)]
      rw [if_neg, if_pos hfit]
      · simp only [hbytes, length_bytes, not_true_eq_false, if_false, deserialize_bytes hr, hint]
      · rw [hint]
        omega
    · rw [if_neg hfit]
      split
      · rfl
      · rw [if_pos]
        rw [List.length_take]
        have := List.length_take_le (m - off) (file.drop off)
        omega

/-- **What `analyze` makes of records written one after another**, of which the file size shows `m` bytes. -/
theorem analyzeLoop_eq (hm : m < 2 ^ 31) (hfs : getFileSize file = m) (hmle : m ≤ file.length) :
    ∀ {rs : List LogEntry} {off bound : ℕ} {a : Analysis}, (∀ r ∈ rs, r.Ok) → off ≤ m →
      (file.drop off).take (m - off) = (logFile rs).take (m - off) → m - off < bound →
      analyzeLoop file bound off a = .ok (a.pushAll (fits LogEntry.size (m - off) rs))
  | _, _, 0, _, _, _, _, hb => absurd hb (Nat.not_lt_zero _)
  | [], off, bound + 1, a, _, hoff, hfile, _ => by
    have hlen := congrArg List.length hfile
    simp only [logFile, List.flatMap_nil, List.take_nil, List.length_nil, List.length_take, List.length_drop] at hlen
    rw [analyzeLoop_short hfs hoff (by rw [LOG_HEADER_SIZE]; omega)]
    rfl
  | r :: rs, off, bound + 1, a, hok, hoff, hfile, hb => by
    have hr := hok r List.mem_cons_self
    have hcons : logFile (r :: rs) = r.bytes ++ logFile rs := rfl
    have hheader := header_le_size r
    rw [hcons] at hfile
    rw [analyzeLoop_cons hm hfs hoff hr hfile, fits]
    by_cases hfit : r.size ≤ m - off
    · -- what is behind the record in the file is what is behind it in the log
      have hrest : (file.drop (off + r.size)).take (m - (off + r.size)) = (logFile rs).take (m - (off + r.size)) := by
        have hdrop := congrArg (List.drop r.size) hfile
        rw [List.drop_take, List.drop_take, List.drop_drop, List.drop_left' (length_bytes r)] at hdrop
        rw [show m - (off + r.size) = m - off - r.size by omega]
        exact hdrop
      rw [if_pos hfit, if_pos hfit, analyzeLoop_eq hm hfs hmle (fun r' hr' => hok r' (List.mem_cons_of_mem _ hr'))
        (by omega) hrest (by rw [LOG_HEADER_SIZE] at hheader; omega)]
      rw [show m - (off + r.size) = m - off - r.size by omega]
      rfl
    · rw [if_neg hfit, if_neg hfit]
      rfl

end Loop

/-! ### Whole files -/

theorem getFileSize_of_lt {file : Bytes} (h : file.length < 2 ^ 31) : getFileSize file = file.length := intOf_of_lt h

/-- What `analyze` makes of a cut-off log of which the file size shows `m` bytes. -/
theorem analyze_eq {rs : List LogEntry} (hok : ∀ r ∈ rs, r.Ok) {file : Bytes} {m : ℕ} (hm : m < 2 ^ 31)
    (hfs : getFileSize file = m) (hmle : m ≤ file.length) (hfile : file.take m = (logFile rs).take m) :
    analyze file = .ok (Analysis.pushAll ⟨[], ∅, ∅⟩ (fits LogEntry.size m rs)) := by
  rw [analyze, hfs]
  by_cases h0 : m = 0
  · subst h0
    rw [if_pos (by simp)]
    cases rs with
    | nil => rfl
    | cons r rs =>
      have := header_le_size r
      rw [fits, if_neg (by rw [LOG_HEADER_SIZE] at this; omega)]
      rfl
  · rw [if_neg (by omega)]
    have hfile₀ : (file.drop 0).take (m - 0) = (logFile rs).take (m - 0) := by simpa using hfile
    exact analyzeLoop_eq hm hfs hmle hok (Nat.zero_le _) hfile₀ (by omega)

theorem reconstructs_of_analyze {file : Bytes} {rs : List LogEntry}
    (h : analyze file = .ok (Analysis.pushAll ⟨[], ∅, ∅⟩ rs)) : Reconstructs file rs := by
  rw [pushAll_eq] at h
  refine ⟨_, h, by simp, ?_, ?_⟩
  · intro t
    simp only [mem_foldl_note, Finset.notMem_empty, false_or]
  · intro t
    simp only [mem_foldl_note, Finset.notMem_empty, false_or]

theorem Reconstructs.logs_eq {file : Bytes} {rs : List LogEntry} {a : Analysis} (h : Reconstructs file rs)
    (ha : analyze file = .ok a) : a.logs = rs := by
  obtain ⟨a', ha', hlogs, -⟩ := h
  rw [ha, Except.ok.injEq] at ha'
  rw [ha', hlogs]

/-- From two to four gigabytes the file size is a negative `int`. -/
theorem getFileSize_neg {file : Bytes} (h₁ : 2 ^ 31 ≤ file.length) (h₂ : file.length < 2 ^ 32) : getFileSize file < 0 := by
  rw [getFileSize, intOf, Int.bmod_def, Int.emod_eq_of_lt (by omega) (by omega)]
  split <;> omega

/-- A file of a negative size looks empty. -/
theorem analyze_of_neg {file : Bytes} (h : getFileSize file < 0) : analyze file = .ok ⟨[], ∅, ∅⟩ := by
  rw [analyze, if_pos h.le]

/-- **A log that is cut off anywhere is read back**, exactly when what is left is shorter than `2 ^ 31` bytes. -/
theorem analyze_reconstructs_iff (rs : List LogEntry) (hok : ∀ r ∈ rs, r.Ok) (n : ℕ) :
    Reconstructs ((logFile rs).take n) (fits LogEntry.size n rs) ↔ ((logFile rs).take n).length < 2 ^ 31 := by
  have hlen : ((logFile rs).take n).length = min n (total LogEntry.size rs) := by
    rw [List.length_take, length_logFile]
  constructor
  · intro h
    by_contra hlong
    have hfits := lt_total_fits (n := n) fun r hr => (hok r hr).short
    have hbuf : LOG_BUFFER_SIZE < 2 ^ 31 := by decide
    rcases intOf_cases ((logFile rs).take n).length with hneg | ⟨m, hfs, hm, ⟨hlt, -⟩ | hmlong⟩
    · -- the file looks empty
      have hnil : fits LogEntry.size n rs = [] := (h.logs_eq (analyze_of_neg hneg)).symm
      rw [hnil] at hfits
      rcases hfits with rfl | hfits
      · rw [total_nil] at hlen
        omega
      · rw [total_nil] at hfits
        omega
    · exact hlong hlt
    · -- the file looks shorter than it is
      have heq := h.logs_eq (analyze_eq hok hm hfs (by omega) (by rw [List.take_take, min_eq_left (by omega)]))
      rw [pushAll_eq] at heq
      have htotal : total LogEntry.size (fits LogEntry.size m rs) ≤ m := total_fits_le rs m
      rw [show fits LogEntry.size m rs = fits LogEntry.size n rs by simpa using heq] at htotal
      rcases hfits with hall | hfits
      · rw [hall] at htotal
        omega
      · omega
  · intro hshort
    refine reconstructs_of_analyze ?_
    rw [← fits_min_total, ← hlen]
    refine analyze_eq hok hshort (getFileSize_of_lt hshort) le_rfl ?_
    rw [List.take_length, hlen, ← length_logFile, ← List.take_eq_take_min]

/-- A `BEGIN` record. -/
def beginRecord (lsn logTid : Int32) : LogEntry := ⟨lsn, 20, logTid, -1, .beginTxn⟩

theorem beginRecord_ok (lsn logTid : Int32) : (beginRecord lsn logTid).Ok :=
  ⟨rfl, show LOG_HEADER_SIZE ≤ LOG_BUFFER_SIZE by decide⟩

/-- A log of `BEGIN` records. -/
def begins (k : ℕ) : List LogEntry := List.replicate k (beginRecord 0 1)

theorem begins_ok {k : ℕ} : ∀ r ∈ begins k, r.Ok := fun _ hr => List.eq_of_mem_replicate hr ▸ beginRecord_ok 0 1

theorem total_begins (k : ℕ) : total LogEntry.size (begins k) = k * 20 := by
  simp [begins, total, LogEntry.size, beginRecord, LOG_HEADER_SIZE]

/-- Of a log of two to four gigabytes no record is read back. -/
theorem not_reconstructs_begins {k : ℕ} (h₁ : 2 ^ 31 ≤ k * 20) (h₂ : k * 20 < 2 ^ 32) :
    ¬ Reconstructs ((logFile (begins k)).take (k * 20)) (fits LogEntry.size (k * 20) (begins k)) := by
  intro h
  have hlen : ((logFile (begins k)).take (k * 20)).length = k * 20 := by
    rw [List.length_take, length_logFile, total_begins, min_self]
  have hneg : getFileSize ((logFile (begins k)).take (k * 20)) < 0 := getFileSize_neg (by rwa [hlen]) (by rwa [hlen])
  have hall := fits_append [] (total_begins k).le
  rw [List.append_nil, ← h.logs_eq (analyze_of_neg hneg)] at hall
  have hk := congrArg List.length hall
  rw [List.length_append, begins, List.length_replicate, List.length_nil] at hk
  omega

/-- A log of two gigabytes, cut off nowhere. -/
theorem analyze_two_gigabytes :
    (∀ r ∈ begins 107374183, r.Ok) ∧
      ¬ Reconstructs ((logFile (begins 107374183)).take (107374183 * 20))
        (fits LogEntry.size (107374183 * 20) (begins 107374183)) :=
  ⟨begins_ok, not_reconstructs_begins (k := 107374183) (by decide) (by decide)⟩

/-- A whole record and half of another. -/
theorem analyze_torn_record :
    Reconstructs ((logFile [beginRecord 0 1, beginRecord 1 2]).take 30) [beginRecord 0 1] :=
  (analyze_reconstructs_iff [beginRecord 0 1, beginRecord 1 2] (by
    intro r hr
    rcases List.mem_pair.mp hr with rfl | rfl
    · exact beginRecord_ok 0 1
    · exact beginRecord_ok 1 2) 30).mpr (by decide)

end Rmdb.Recovery
