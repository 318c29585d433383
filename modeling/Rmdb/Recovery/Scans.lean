import Rmdb.Lib.Rounds
import Rmdb.Recovery.LogManager

/-!
# The two scans of the log

`initialize_lsn` and `analyze` both go through the log file record by record, along the
lengths that the headers give. `analyze` refuses a length above `LOG_BUFFER_SIZE`;
`initialize_lsn` does not. It only asks whether the record ends behind the file, in `int`
arithmetic: a length of `2 ^ 31` or more is a negative `int`, so that such a record never
does, and the scan goes back, and may go round for ever.

`RecordStart` follows the lengths that both accept. The two scans agree exactly if no header
where this ends has a longer length that `initialize_lsn` accepts, and `analyze` can read
the bodies of the records (`scansAgree_iff`).

A scan is a loop of rounds (`Lib.Runs`), which give where the loop goes on. `analyzeLoop` and `maxLsnLoop` go on as these
rounds do (`analyzeLoop_runs`, `maxLsnLoop_runs`). Sums that leave the range of `int` wrap.
-/

namespace Rmdb.Recovery

open Lib LogEntry

/-! ### The rounds -/

/-- A round of `initialize_lsn`. -/
def nextLsn (file : Bytes) (s : LogCursor) : Except ScanError (Option LogCursor) :=
  if intOf (s.offset + LOG_HEADER_SIZE) ≤ getFileSize file then do
    match ← readLogAt file LOG_HEADER_SIZE s with
    | none => .ok none
    | some (header, pos) =>
      if header.length ≠ LOG_HEADER_SIZE then .ok none
      else match readWord header OFFSET_LOG_TOT_LEN with
        | none => .error .outside
        | some length =>
          if length.toNat < LOG_HEADER_SIZE ∨ getFileSize file < intOf (s.offset + intOf length.toNat) then .ok none
          else .ok (some ⟨intOf (s.offset + length.toNat), pos⟩)
  else .ok none

/-- A round of `analyze`. Its offsets are never negative. -/
def nextRecord (file : Bytes) (offset : ℤ) : Except ScanError (Option ℤ) :=
  if intOf (offset + LOG_HEADER_SIZE) ≤ getFileSize file then
    match readLog file LOG_HEADER_SIZE offset with
    | none => .ok none
    | some header =>
      if header.length ≠ LOG_HEADER_SIZE then .ok none
      else match readWord header OFFSET_LOG_TYPE, readWord header OFFSET_LOG_TOT_LEN with
        | some type, some length =>
          if length.toNat < LOG_HEADER_SIZE ∨ LOG_BUFFER_SIZE < length.toNat ∨
              getFileSize file < intOf (offset + intOf length.toNat) then .ok none
          else match readLog file length.toNat offset with
            | none => .ok none
            | some bytes =>
              if bytes.length ≠ length.toNat then .ok none
              else match LogType.ofCode type with
                | none => .error .unknownType
                | some type => match deserialize type bytes with
                  | none => .error .outside
                  | some _ => .ok (some (intOf (offset + length.toNat)))
        | _, _ => .error .outside
  else .ok none

/-- `initialize_lsn` with `log_fd_` somewhere: it takes the records at these offsets, and returns. -/
def LsnScan (file : Bytes) (pos : ℕ) (offsets : List ℤ) : Prop :=
  ∃ l t, Runs (nextLsn file) ⟨0, pos⟩ l t ∧ nextLsn file t = .ok none ∧ l.map LogCursor.offset = offsets

/-- `analyze`: it takes the records at these offsets, and returns, or ends with an error. -/
def AnalyzeScan (file : Bytes) (offsets : List ℤ) (o : Option ScanError) : Prop :=
  getFileSize file ≤ 0 ∧ offsets = [] ∧ o = none ∨
    0 < getFileSize file ∧ ∃ t, Runs (nextRecord file) 0 offsets t ∧ nextRecord file t = o.elim (.ok none) .error

/-- **The scans agree**: both end, and take the same records, unless `analyze` meets an unknown type. -/
structure ScansAgree (file : Bytes) (pos : ℕ) : Prop where
  lsn : ∃ offsets, LsnScan file pos offsets
  analyze : ∃ offsets o, AnalyzeScan file offsets o
  same : ∀ offsets offsets' o, LsnScan file pos offsets → AnalyzeScan file offsets' o → o ≠ some .unknownType →
    offsets = offsets'

/-! ### The records of a file -/

/-- A word of the header at an offset. -/
def headerWord (file : Bytes) (offset field : ℕ) : Option UInt32 :=
  readWord ((file.drop offset).take LOG_HEADER_SIZE) field

/-- There is a whole header at the offset, with this length. -/
structure HeaderAt (file : Bytes) (offset : ℕ) (length : UInt32) : Prop where
  inside : offset + LOG_HEADER_SIZE ≤ file.length
  length : headerWord file offset OFFSET_LOG_TOT_LEN = some length

/-- A length that a record may have, up to the end of the file. -/
def Fits (file : Bytes) (offset : ℕ) (length : UInt32) : Prop :=
  LOG_HEADER_SIZE ≤ length.toNat ∧ length.toNat ≤ LOG_BUFFER_SIZE ∧ offset + length.toNat ≤ file.length

/-- Where a record starts, or the last one has ended. -/
inductive RecordStart (file : Bytes) : ℕ → Prop where
  /-- The start of the file. -/
  | first : RecordStart file 0
  /-- Behind a record. -/
  | next {offset length} : RecordStart file offset → HeaderAt file offset length → Fits file offset length →
    RecordStart file (offset + length.toNat)

/-- No header with a length above `LOG_BUFFER_SIZE`, unless the record ends behind the file and below `2 ^ 31`. -/
def NoLongRecord (file : Bytes) : Prop := ∀ offset length, RecordStart file offset → HeaderAt file offset length →
  LOG_BUFFER_SIZE < length.toNat → file.length < offset + length.toNat ∧ offset + length.toNat < 2 ^ 31

/-- The body of each record, by its type, lies inside the record. -/
def Readable (file : Bytes) : Prop := ∀ offset length code type, RecordStart file offset → HeaderAt file offset length →
  Fits file offset length → headerWord file offset OFFSET_LOG_TYPE = some code → LogType.ofCode code = some type →
  deserialize type ((file.drop offset).take length.toNat) ≠ none

/-! ### One round -/

section Rounds

variable {file : Bytes} {offset : ℕ} {length : UInt32}

theorem headerWord_isSome (h : offset + LOG_HEADER_SIZE ≤ file.length) {field : ℕ} (hfield : field + 4 ≤ LOG_HEADER_SIZE) :
    ∃ w, headerWord file offset field = some w := by
  have hlen : ((file.drop offset).take LOG_HEADER_SIZE).length = LOG_HEADER_SIZE := by
    rw [List.length_take, List.length_drop]
    omega
  rw [headerWord, readWord, readBlock, if_pos (by rw [hlen]; exact hfield)]
  exact ⟨_, rfl⟩

theorem exists_header (h : offset + LOG_HEADER_SIZE ≤ file.length) : ∃ length, HeaderAt file offset length := by
  obtain ⟨length, hlength⟩ := headerWord_isSome h (show OFFSET_LOG_TOT_LEN + 4 ≤ LOG_HEADER_SIZE by decide)
  exact ⟨length, h, hlength⟩

theorem HeaderAt.unique {length' : UInt32} (h : HeaderAt file offset length) (h' : HeaderAt file offset length') :
    length = length' := Option.some.inj (h.length.symm.trans h'.length)

variable (hsize : file.length + LOG_BUFFER_SIZE < 2 ^ 31)
include hsize

theorem fileSize_eq : getFileSize file = file.length := getFileSize_of_lt (by omega)

theorem readLog_inside {n : ℕ} (h : offset + n ≤ file.length) :
    readLog file n offset = some ((file.drop offset).take n) ∧ ((file.drop offset).take n).length = n := by
  have hlen : ((file.drop offset).take n).length = n := by
    rw [List.length_take, List.length_drop]
    omega
  refine ⟨?_, hlen⟩
  rw [readLog, fileSize_eq hsize, if_neg (by omega), Int.toNat_natCast, min_eq_left (by omega), Int.toNat_natCast]

theorem nextRecord_short (hoff : offset ≤ file.length) (h : ¬ offset + LOG_HEADER_SIZE ≤ file.length) :
    nextRecord file offset = .ok none := by
  have hbuf : LOG_HEADER_SIZE ≤ LOG_BUFFER_SIZE := by decide
  rw [nextRecord, fileSize_eq hsize, if_neg]
  rw [← Int.natCast_add, intOf_of_lt (by omega)]
  omega

/-- The rounds of both scans where there is a header. -/
theorem round_inside (h : offset + LOG_HEADER_SIZE ≤ file.length) :
    intOf ((offset : ℤ) + LOG_HEADER_SIZE) ≤ file.length := by
  have hbuf : LOG_HEADER_SIZE ≤ LOG_BUFFER_SIZE := by decide
  rw [← Int.natCast_add, intOf_of_lt (by omega)]
  omega

/-- The end of a record that fits. -/
theorem Fits.end_eq (h : Fits file offset length) :
    intOf length.toNat = length.toNat ∧ intOf ((offset : ℤ) + length.toNat) = ((offset + length.toNat : ℕ) : ℤ) := by
  obtain ⟨h1, h2, h3⟩ := h
  rw [← Int.natCast_add]
  exact ⟨intOf_of_lt (by omega), intOf_of_lt (by omega)⟩

/-- `analyze` stops at a record that does not fit. -/
theorem nextRecord_misfit (h : HeaderAt file offset length) (hno : ¬ Fits file offset length) :
    nextRecord file offset = .ok none := by
  have hinside := h.inside
  obtain ⟨code, hcode⟩ := headerWord_isSome h.inside (show OFFSET_LOG_TYPE + 4 ≤ LOG_HEADER_SIZE by decide)
  obtain ⟨hread, hlen⟩ := readLog_inside hsize h.inside
  have hlength := h.length
  rw [headerWord] at hcode hlength
  have hcond : length.toNat < LOG_HEADER_SIZE ∨ LOG_BUFFER_SIZE < length.toNat ∨
      (file.length : ℤ) < intOf (offset + intOf length.toNat) := by
    by_cases h1 : length.toNat < LOG_HEADER_SIZE
    · exact .inl h1
    · by_cases h2 : LOG_BUFFER_SIZE < length.toNat
      · exact .inr (.inl h2)
      · refine .inr (.inr ?_)
        have h3 : ¬ offset + length.toNat ≤ file.length := fun h3 => hno ⟨not_lt.mp h1, not_lt.mp h2, h3⟩
        rw [intOf_of_lt (by omega), ← Int.natCast_add, intOf_of_lt (by omega)]
        omega
  rw [nextRecord, fileSize_eq hsize, if_pos (round_inside hsize h.inside)]
  simp only [hread]
  rw [if_neg (not_not.mpr hlen)]
  simp only [hcode, hlength]
  exact if_pos hcond

/-- `analyze` at a record that fits. -/
theorem nextRecord_fits (h : HeaderAt file offset length) (hfits : Fits file offset length) :
    ∃ code, headerWord file offset OFFSET_LOG_TYPE = some code ∧ nextRecord file offset =
      match LogType.ofCode code with
      | none => .error .unknownType
      | some type => match deserialize type ((file.drop offset).take length.toNat) with
        | none => .error .outside
        | some _ => .ok (some ((offset + length.toNat : ℕ) : ℤ)) := by
  obtain ⟨code, hcode⟩ := headerWord_isSome h.inside (show OFFSET_LOG_TYPE + 4 ≤ LOG_HEADER_SIZE by decide)
  obtain ⟨hread, hlen⟩ := readLog_inside hsize h.inside
  have hlength := h.length
  refine ⟨code, hcode, ?_⟩
  rw [headerWord] at hcode hlength
  obtain ⟨hint, hend⟩ := Fits.end_eq hsize hfits
  obtain ⟨h1, h2, h3⟩ := hfits
  obtain ⟨hbody, hbodyLen⟩ := readLog_inside hsize h3
  rw [nextRecord, fileSize_eq hsize, if_pos (round_inside hsize h.inside)]
  simp only [hread, hlen, ne_eq, not_true_eq_false, if_false, hcode, hlength, hint, hend]
  rw [if_neg (by omega)]
  simp only [hbody, hbodyLen, not_true_eq_false, if_false]

theorem nextLsn_short {pos : ℕ} (hoff : offset ≤ file.length) (h : ¬ offset + LOG_HEADER_SIZE ≤ file.length) :
    nextLsn file ⟨offset, pos⟩ = .ok none := by
  have hbuf : LOG_HEADER_SIZE ≤ LOG_BUFFER_SIZE := by decide
  rw [nextLsn, fileSize_eq hsize, if_neg]
  rw [← Int.natCast_add, intOf_of_lt (by omega)]
  omega

/-- `initialize_lsn` where a record starts. -/
theorem nextLsn_header {pos : ℕ} (h : HeaderAt file offset length) : nextLsn file ⟨offset, pos⟩ =
    if length.toNat < LOG_HEADER_SIZE ∨ file.length < intOf (offset + intOf length.toNat) then .ok none
    else .ok (some ⟨intOf (offset + length.toNat), offset + LOG_HEADER_SIZE⟩) := by
  have hinside := h.inside
  obtain ⟨-, hlen⟩ := readLog_inside hsize h.inside
  have hread : readLogAt file LOG_HEADER_SIZE ⟨offset, pos⟩ =
      .ok (some ((file.drop offset).take LOG_HEADER_SIZE, offset + LOG_HEADER_SIZE)) := by
    have hmin : min (LOG_HEADER_SIZE : ℤ) (intOf (file.length - offset)) = LOG_HEADER_SIZE := by
      rw [← Int.natCast_sub (by omega), intOf_of_lt (by omega)]
      omega
    have hpos : (LOG_HEADER_SIZE : ℤ) ≠ 0 := by decide
    simp only [readLogAt, fileSize_eq hsize, hmin, hpos, if_false, Int.natCast_nonneg, if_true, Int.toNat_natCast, hlen]
    rw [if_neg (by omega)]
  have hlength := h.length
  rw [headerWord] at hlength
  rw [nextLsn, fileSize_eq hsize, if_pos (round_inside hsize h.inside), hread]
  simp only [bind, Except.bind, hlen, ne_eq, not_true_eq_false, if_false, hlength]

/-- A record that fits is taken by `initialize_lsn`. -/
theorem nextLsn_fits {pos : ℕ} (h : HeaderAt file offset length) (hfits : Fits file offset length) :
    nextLsn file ⟨offset, pos⟩ = .ok (some ⟨(offset + length.toNat : ℕ), offset + LOG_HEADER_SIZE⟩) := by
  obtain ⟨hint, hend⟩ := Fits.end_eq hsize hfits
  obtain ⟨h1, h2, h3⟩ := hfits
  rw [nextLsn_header hsize h, hint, hend, if_neg (by omega)]

end Rounds

/-! ### Whole scans -/

section Scans

variable {file : Bytes}

/-- A round of `analyze` goes on behind a record that fits and that it can read. -/
theorem nextRecord_go (hsize : file.length + LOG_BUFFER_SIZE < 2 ^ 31) {offset : ℕ} (hoff : offset ≤ file.length)
    {s' : ℤ} (h : nextRecord file offset = .ok (some s')) :
    ∃ length, HeaderAt file offset length ∧ Fits file offset length ∧ s' = (offset + length.toNat : ℕ) ∧
      ∀ code type, headerWord file offset OFFSET_LOG_TYPE = some code → LogType.ofCode code = some type →
        deserialize type ((file.drop offset).take length.toNat) ≠ none := by
  by_cases hinside : offset + LOG_HEADER_SIZE ≤ file.length
  · obtain ⟨length, hheader⟩ := exists_header hinside
    by_cases hfits : Fits file offset length
    · obtain ⟨code, hcode, hround⟩ := nextRecord_fits hsize hheader hfits
      rw [hround] at h
      refine ⟨length, hheader, hfits, ?_, ?_⟩
      · split at h
        · cases h
        · split at h
          · cases h
          · exact (Option.some.inj (Except.ok.inj h)).symm
      · intro code' type hcode' htype hnone
        obtain rfl := Option.some.inj (hcode.symm.trans hcode')
        simp only [htype, hnone] at h
        cases h
    · rw [nextRecord_misfit hsize hheader hfits] at h
      cases h
  · rw [nextRecord_short hsize hoff hinside] at h
    cases h

theorem RecordStart.le {offset : ℕ} (h : RecordStart file offset) : offset ≤ file.length := by
  cases h with
  | first => exact Nat.zero_le _
  | next _ _ hfits => exact hfits.2.2

/-- The offsets of `analyze` are those where a record starts. -/
def AtRecord (file : Bytes) (s : ℤ) : Prop := ∃ offset : ℕ, s = offset ∧ RecordStart file offset

variable (hsize : file.length + LOG_BUFFER_SIZE < 2 ^ 31)
include hsize

theorem atRecord_step (s s' : ℤ) (hs : AtRecord file s) (h : nextRecord file s = .ok (some s')) :
    AtRecord file s' ∧ file.length - s'.toNat < file.length - s.toNat := by
  obtain ⟨offset, rfl, hstart⟩ := hs
  obtain ⟨length, hheader, hfits, rfl, -⟩ := nextRecord_go hsize hstart.le h
  have hpos : 0 < LOG_HEADER_SIZE := by decide
  have hle := (hstart.next hheader hfits).le
  have hlow := hfits.1
  refine ⟨⟨_, rfl, hstart.next hheader hfits⟩, ?_⟩
  simp only [Int.toNat_natCast]
  omega

/-- `analyze` always comes to an end. -/
theorem exists_analyzeRun : ∃ l t, Runs (nextRecord file) 0 l t ∧ AtRecord file t := by
  obtain ⟨l, t, h⟩ := Runs.exists_of_lt (fun s : ℤ => file.length - s.toNat) (atRecord_step hsize) _
    (⟨0, rfl, .first⟩ : AtRecord file 0) (Nat.lt_succ_self _)
  exact ⟨l, t, h, (h.inv (fun s s' hs hnext => (atRecord_step hsize s s' hs hnext).1) ⟨0, rfl, .first⟩).2⟩

theorem nextRecord_empty (hnil : file.length = 0) :
    nextRecord file 0 = .ok none ∧ Runs (nextRecord file) 0 [] 0 := by
  have hstop : nextRecord file 0 = .ok none := by
    have hshort : ¬ 0 + LOG_HEADER_SIZE ≤ file.length := by
      rw [hnil]
      decide
    exact nextRecord_short hsize (Nat.zero_le _) hshort
  refine ⟨hstop, .done ?_⟩
  intro s' hs'
  rw [hstop] at hs'
  cases hs'

/-- An empty file, for which `analyze` returns at once, would end its loop at once. -/
theorem analyzeScan_iff {offsets : List ℤ} {o : Option ScanError} : AnalyzeScan file offsets o ↔
    ∃ t, Runs (nextRecord file) 0 offsets t ∧ nextRecord file t = o.elim (.ok none) .error := by
  rw [AnalyzeScan, fileSize_eq hsize]
  constructor
  · rintro (⟨hempty, rfl, rfl⟩ | ⟨-, h⟩)
    · obtain ⟨hstop, hrun⟩ := nextRecord_empty hsize (by omega)
      exact ⟨0, hrun, hstop⟩
    · exact h
  · intro h
    rcases Nat.eq_zero_or_pos file.length with hnil | hpos
    · obtain ⟨t, ht, ho⟩ := h
      obtain ⟨hstop, hrun⟩ := nextRecord_empty hsize hnil
      obtain ⟨rfl, rfl⟩ := ht.unique hrun
      rw [hstop] at ho
      cases o with
      | none => exact .inl ⟨by omega, rfl, rfl⟩
      | some e => cases ho
    · exact .inr ⟨by omega, h⟩

/-- Every place where a record starts is one that `analyze` goes on from, or where it ends, if it can read the
records. -/
theorem mem_of_start {l : List ℤ} {t : ℤ} (h : Runs (nextRecord file) 0 l t) (hstop : nextRecord file t = .ok none)
    {offset : ℕ} (hstart : RecordStart file offset) : (offset : ℤ) ∈ l ∨ (offset : ℤ) = t := by
  induction hstart with
  | first => exact h.start_mem
  | @next offset length hstart hheader hfits ih =>
    rcases ih with hmem | rfl
    · obtain ⟨s', hnext, hs'⟩ := h.next_mem _ hmem
      obtain ⟨length', hheader', -, rfl, -⟩ := nextRecord_go hsize hstart.le hnext
      rwa [hheader.unique hheader']
    · obtain ⟨code, -, hround⟩ := nextRecord_fits hsize hheader hfits
      rw [hround] at hstop
      split at hstop
      · cases hstop
      · split at hstop <;> cases hstop

/-- Where `initialize_lsn` goes on from a place where a record starts, and lengths are as they should be. -/
theorem nextLsn_go (hlong : NoLongRecord file) {offset : ℕ} (pos : ℕ) (hstart : RecordStart file offset) :
    nextLsn file ⟨offset, pos⟩ = .ok none ∧ (∀ length, HeaderAt file offset length → ¬ Fits file offset length) ∨
      ∃ length, HeaderAt file offset length ∧ Fits file offset length := by
  by_cases hinside : offset + LOG_HEADER_SIZE ≤ file.length
  · obtain ⟨length, hheader⟩ := exists_header hinside
    by_cases hfits : Fits file offset length
    · exact .inr ⟨length, hheader, hfits⟩
    · refine .inl ⟨?_, fun length' hheader' => hheader.unique hheader' ▸ hfits⟩
      rw [nextLsn_header hsize hheader, if_pos]
      by_cases hlow : length.toNat < LOG_HEADER_SIZE
      · exact .inl hlow
      · right
        have hend : file.length < offset + length.toNat ∧ offset + length.toNat < 2 ^ 31 := by
          by_cases hbuf : LOG_BUFFER_SIZE < length.toNat
          · exact hlong offset length hstart hheader hbuf
          · have hle := hstart.le
            have hno : ¬ offset + length.toNat ≤ file.length := fun h => hfits ⟨not_lt.mp hlow, not_lt.mp hbuf, h⟩
            exact ⟨by omega, by omega⟩
        rw [intOf_of_lt (by omega), ← Int.natCast_add, intOf_of_lt hend.2]
        omega
  · exact .inl ⟨nextLsn_short hsize hstart.le hinside, fun length hheader => absurd hheader.inside hinside⟩

/-- Where a scan of `initialize_lsn` is, as long as lengths are as they should be. -/
def AtCursor (file : Bytes) (s : LogCursor) : Prop := ∃ offset : ℕ, s.offset = offset ∧ RecordStart file offset

theorem atCursor_step (hlong : NoLongRecord file) (s s' : LogCursor) (hs : AtCursor file s)
    (h : nextLsn file s = .ok (some s')) :
    AtCursor file s' ∧ file.length - s'.offset.toNat < file.length - s.offset.toNat := by
  obtain ⟨z, pos⟩ := s
  obtain ⟨offset, rfl, hstart⟩ := hs
  rcases nextLsn_go hsize hlong pos hstart with ⟨hstop, -⟩ | ⟨length, hheader, hfits⟩
  · rw [hstop] at h
    cases h
  · rw [nextLsn_fits hsize hheader hfits] at h
    cases h
    have hpos : 0 < LOG_HEADER_SIZE := by decide
    have hle := (hstart.next hheader hfits).le
    have hlow := hfits.1
    refine ⟨⟨_, rfl, hstart.next hheader hfits⟩, ?_⟩
    simp only [Int.toNat_natCast]
    omega

/-- `initialize_lsn` comes to an end if lengths are as they should be. -/
theorem exists_lsnScan (hlong : NoLongRecord file) (pos : ℕ) : ∃ offsets, LsnScan file pos offsets := by
  have hinit : AtCursor file ⟨0, pos⟩ := ⟨0, rfl, .first⟩
  obtain ⟨l, t, h⟩ := Runs.exists_of_lt (fun s : LogCursor => file.length - s.offset.toNat)
    (atCursor_step hsize hlong) _ hinit (Nat.lt_succ_self _)
  obtain ⟨-, hat⟩ := h.inv (fun s s' hs hnext => (atCursor_step hsize hlong s s' hs hnext).1) hinit
  refine ⟨_, l, t, h, ?_, rfl⟩
  obtain ⟨z, pos'⟩ := t
  obtain ⟨offset, rfl, hstart⟩ := hat
  rcases nextLsn_go hsize hlong pos' hstart with ⟨hstop, -⟩ | ⟨length, hheader, hfits⟩
  · exact hstop
  · exact absurd (nextLsn_fits hsize hheader hfits) (h.not_go _)

/-- A scan of `analyze` that returns is one of `initialize_lsn`. -/
theorem lsnRun_of_analyzeRun (hlong : NoLongRecord file) {s t : ℤ} {l : List ℤ} (h : Runs (nextRecord file) s l t)
    (hstop : nextRecord file t = .ok none) : ∀ (pos : ℕ) {offset : ℕ}, s = offset → RecordStart file offset →
      ∃ l₂ t₂, Runs (nextLsn file) ⟨offset, pos⟩ l₂ t₂ ∧ nextLsn file t₂ = .ok none ∧ l₂.map LogCursor.offset = l := by
  induction h with
  | done hno =>
    rintro pos offset rfl hstart
    rcases nextLsn_go hsize hlong pos hstart with ⟨hstop', -⟩ | ⟨length, hheader, hfits⟩
    · refine ⟨[], _, .done ?_, hstop', rfl⟩
      intro s' hs'
      rw [hstop'] at hs'
      cases hs'
    · obtain ⟨code, -, hround⟩ := nextRecord_fits hsize hheader hfits
      rw [hround] at hstop
      split at hstop
      · cases hstop
      · split at hstop <;> cases hstop
  | go hnext _ ih =>
    rintro pos offset rfl hstart
    obtain ⟨length, hheader, hfits, rfl, -⟩ := nextRecord_go hsize hstart.le hnext
    obtain ⟨l₂, t₂, hrun, hstop', hl⟩ := ih hstop _ rfl (hstart.next hheader hfits)
    exact ⟨_ :: l₂, t₂, .go (nextLsn_fits hsize hheader hfits) hrun, hstop', by rw [List.map_cons, hl]⟩

/-- How `analyze` can fail where a record starts. -/
theorem nextRecord_error {offset : ℕ} (hstart : RecordStart file offset) {e : ScanError}
    (h : nextRecord file offset = .error e) : ∃ length, HeaderAt file offset length ∧ Fits file offset length ∧
      (e = .unknownType ∨ ∃ code type, headerWord file offset OFFSET_LOG_TYPE = some code ∧
        LogType.ofCode code = some type ∧ deserialize type ((file.drop offset).take length.toNat) = none) := by
  by_cases hinside : offset + LOG_HEADER_SIZE ≤ file.length
  · obtain ⟨length, hheader⟩ := exists_header hinside
    by_cases hfits : Fits file offset length
    · obtain ⟨code, hcode, hround⟩ := nextRecord_fits hsize hheader hfits
      rw [hround] at h
      refine ⟨length, hheader, hfits, ?_⟩
      split at h
      · exact .inl (Except.error.inj h).symm
      · next type htype =>
        split at h
        · next hnone => exact .inr ⟨code, type, hcode, htype, hnone⟩
        · cases h
    · rw [nextRecord_misfit hsize hheader hfits] at h
      cases h
  · rw [nextRecord_short hsize hstart.le hinside] at h
    cases h

/-- Where `initialize_lsn` stops at a long record, the record ends behind the file and below `2 ^ 31`. -/
theorem end_of_stop {offset pos : ℕ} {length : UInt32} (hheader : HeaderAt file offset length)
    (hlong : LOG_BUFFER_SIZE < length.toNat) (hstop : nextLsn file ⟨offset, pos⟩ = .ok none) :
    file.length < offset + length.toNat ∧ offset + length.toNat < 2 ^ 31 := by
  have hbuf : LOG_HEADER_SIZE ≤ LOG_BUFFER_SIZE := by decide
  have hinside := hheader.inside
  have hword := length.toNat_lt
  have hend : (file.length : ℤ) < intOf (offset + intOf length.toNat) := by
    rw [nextLsn_header hsize hheader] at hstop
    split_ifs at hstop with hcond
    · exact hcond.resolve_left (by omega)
    · cases hstop
  rw [intOf, intOf, Int.bmod_def, Int.bmod_def] at hend
  split_ifs at hend <;> omega

end Scans

/-! ### The loops -/

section Loops

open LogManager

variable {file : Bytes}

theorem readInt32_isSome {header : Bytes} (h : header.length = LOG_HEADER_SIZE) : ∃ lsn, readInt32 header OFFSET_LSN = some lsn := by
  rw [readInt32, readWord, readBlock, if_pos (by rw [h]; decide)]
  exact ⟨_, rfl⟩

/-- Where the loop of `initialize_lsn` does not stop, it goes on as the round says, with a greater `lsn_` perhaps. -/
theorem maxLsnLoop_go {s s' : LogCursor} (h : nextLsn file s = .ok (some s')) :
    ∃ lsn, ∀ n maxLsn, maxLsnLoop file (n + 1) s maxLsn = maxLsnLoop file n s' (max maxLsn lsn) := by
  unfold nextLsn at h
  split at h
  case isFalse => cases h
  case isTrue hinside =>
    rcases hread : readLogAt file LOG_HEADER_SIZE s with e | _ | ⟨header, pos⟩
    · rw [hread] at h
      cases h
    · rw [hread] at h
      cases h
    · simp only [hread, bind, Except.bind] at h
      split at h
      · cases h
      · rename_i hlen
        obtain ⟨lsn, hlsn⟩ := readInt32_isSome (not_not.mp hlen)
        split at h
        · cases h
        · rename_i length hlength
          split at h
          · cases h
          · rename_i hend
            cases h
            refine ⟨lsn, ?_⟩
            intro n maxLsn
            rw [maxLsnLoop, if_pos hinside]
            simp only [hread, hlength, hlsn]
            rw [if_neg hlen, if_neg hend]

/-- Where the round ends the scan, the loop has the greatest `lsn_`. -/
theorem maxLsnLoop_stop {s : LogCursor} (h : ∀ s', nextLsn file s ≠ .ok (some s')) (n : ℕ) (maxLsn : Int32) :
    maxLsnLoop file n s maxLsn = maxLsn := by
  cases n with
  | zero => rfl
  | succ n =>
    unfold nextLsn at h
    rw [maxLsnLoop]
    split_ifs at h ⊢ with hinside
    · rcases hread : readLogAt file LOG_HEADER_SIZE s with e | _ | ⟨header, pos⟩
      · rfl
      · rfl
      · simp only [hread, bind, Except.bind] at h ⊢
        split_ifs at h ⊢ with hlen
        · rfl
        · rcases hlength : readWord header OFFSET_LOG_TOT_LEN with _ | length
          · rfl
          · rcases hlsn : readInt32 header OFFSET_LSN with _ | lsn
            · rfl
            · simp only [hlength] at h ⊢
              split_ifs at h ⊢ with hend
              · rfl
              · exact absurd rfl (h _)
    · rfl

/-- **The loop of `initialize_lsn`** goes through the records that the rounds take. -/
theorem maxLsnLoop_runs {s t : LogCursor} {l : List LogCursor} (h : Runs (nextLsn file) s l t) :
    ∃ lsns : List Int32, lsns.length = l.length ∧
      ∀ n ≥ l.length, ∀ maxLsn, maxLsnLoop file n s maxLsn = lsns.foldl max maxLsn := by
  induction h with
  | done hstop => exact ⟨[], rfl, fun n _ maxLsn => maxLsnLoop_stop hstop n maxLsn⟩
  | go hnext _ ih =>
    obtain ⟨lsns, hlen, hloop⟩ := ih
    obtain ⟨lsn, hgo⟩ := maxLsnLoop_go hnext
    refine ⟨lsn :: lsns, congrArg (· + 1) hlen, ?_⟩
    intro n hn maxLsn
    obtain ⟨m, rfl⟩ := Nat.exists_eq_add_of_le' (Nat.one_le_of_lt (Nat.lt_of_succ_le hn))
    rw [hgo, hloop m (Nat.le_of_succ_le_succ hn), List.foldl_cons]

/-- A negative `int` is added as an `int`. -/
theorem intOf_add_intOf (x y : ℤ) : intOf (x + intOf y) = intOf (x + y) := Int.add_bmod_bmod

/-- A round of the loop of `analyze`. -/
theorem analyzeLoop_round (file : Bytes) (offset : ℤ) : (∃ s' record, nextRecord file offset = .ok (some s') ∧
      ∀ n a, analyzeLoop file (n + 1) offset a = analyzeLoop file n s' (a.push record)) ∨
    (nextRecord file offset = .ok none ∧ ∀ n a, analyzeLoop file (n + 1) offset a = .ok a) ∨
    (nextRecord file offset = .error .unknownType ∧ ∀ n a, analyzeLoop file (n + 1) offset a = .error .unknownType) ∨
    nextRecord file offset = .error .outside ∧ ∀ n a, analyzeLoop file (n + 1) offset a = .error .outside := by
  simp only [analyzeLoop, nextRecord, intOf_add_intOf]
  split
  case isFalse => exact .inr (.inl ⟨rfl, fun _ _ => rfl⟩)
  case isTrue =>
    rcases readLog file LOG_HEADER_SIZE offset with _ | header
    · exact .inr (.inl ⟨rfl, fun _ _ => rfl⟩)
    · simp only
      split
      · exact .inr (.inl ⟨rfl, fun _ _ => rfl⟩)
      · rcases readWord header OFFSET_LOG_TYPE with _ | code
        · exact .inr (.inr (.inr ⟨rfl, fun _ _ => rfl⟩))
        · rcases readWord header OFFSET_LOG_TOT_LEN with _ | length
          · exact .inr (.inr (.inr ⟨rfl, fun _ _ => rfl⟩))
          · simp only
            split
            · exact .inr (.inl ⟨rfl, fun _ _ => rfl⟩)
            · rcases readLog file length.toNat offset with _ | bytes
              · exact .inr (.inl ⟨rfl, fun _ _ => rfl⟩)
              · simp only
                split
                · exact .inr (.inl ⟨rfl, fun _ _ => rfl⟩)
                · rcases LogType.ofCode code with _ | type
                  · exact .inr (.inr (.inl ⟨rfl, fun _ _ => rfl⟩))
                  · simp only
                    rcases deserialize type bytes with _ | record
                    · exact .inr (.inr (.inr ⟨rfl, fun _ _ => rfl⟩))
                    · exact .inl ⟨_, record, rfl, fun _ _ => rfl⟩

/-- **The loop of `analyze`** takes the records that the rounds take, and ends as they do. -/
theorem analyzeLoop_runs {s t : ℤ} {l : List ℤ} (h : Runs (nextRecord file) s l t) :
    ∃ records : List LogEntry, records.length = l.length ∧ ∀ n > l.length, ∀ a,
      (nextRecord file t = .ok none → analyzeLoop file n s a = .ok (a.pushAll records)) ∧
      (nextRecord file t = .error .unknownType → analyzeLoop file n s a = .error .unknownType) ∧
      (nextRecord file t = .error .outside → analyzeLoop file n s a = .error .outside) := by
  induction h with
  | @done t hstop =>
    refine ⟨[], rfl, ?_⟩
    intro n hn a
    obtain ⟨n, rfl⟩ := Nat.exists_eq_add_of_le' (Nat.one_le_of_lt hn)
    rcases analyzeLoop_round file t with ⟨s', -, hnext, -⟩ | ⟨hnext, hloop⟩ | ⟨hnext, hloop⟩ | ⟨hnext, hloop⟩
    · exact absurd hnext (hstop s')
    all_goals simp [hnext, hloop, Analysis.pushAll]
  | @go s s' t l hnext _ ih =>
    obtain ⟨records, hlen, hrest⟩ := ih
    rcases analyzeLoop_round file s with ⟨s₁, record, hnext', hloop⟩ | ⟨hnext', -⟩ | ⟨hnext', -⟩ | ⟨hnext', -⟩
    · obtain rfl : s' = s₁ := Option.some.inj (Except.ok.inj (hnext.symm.trans hnext'))
      refine ⟨record :: records, congrArg (· + 1) hlen, ?_⟩
      intro n hn a
      obtain ⟨n, rfl⟩ := Nat.exists_eq_add_of_le' (Nat.one_le_of_lt hn)
      rw [hloop, Analysis.pushAll, List.foldl_cons]
      exact hrest n (Nat.lt_of_succ_lt_succ hn) (a.push record)
    all_goals exact absurd (hnext.symm.trans hnext') (by simp)

/-- `analyze` is the scan: it returns as many records as this takes, and throws where this does. -/
theorem AnalyzeScan.analyze (hsize : file.length + LOG_BUFFER_SIZE < 2 ^ 31) {offsets : List ℤ} {o : Option ScanError}
    (h : AnalyzeScan file offsets o) : (o = none → ∃ a, Recovery.analyze file = .ok a ∧ a.logs.length = offsets.length) ∧
      (o = some .unknownType → Recovery.analyze file = .error .unknownType) ∧
      (o = some .outside → Recovery.analyze file = .error .outside) := by
  unfold Recovery.analyze
  rcases h with ⟨hneg, rfl, rfl⟩ | ⟨hpos, t, hrun, hend⟩
  · rw [if_pos hneg]
    exact ⟨fun _ => ⟨_, rfl, rfl⟩, nofun, nofun⟩
  · have hrounds : offsets.length ≤ file.length :=
      hrun.length_le (μ := fun s => file.length - s.toNat) (atRecord_step hsize) ⟨0, rfl, .first⟩
    obtain ⟨records, hlen, hloop⟩ := analyzeLoop_runs hrun
    obtain ⟨hnone, hunknown, houtside⟩ := hloop (file.length + 1) (Nat.lt_succ_of_le hrounds) ⟨[], ∅, ∅⟩
    rw [if_neg (not_le.mpr hpos)]
    refine ⟨?_, ?_, ?_⟩
    · rintro rfl
      refine ⟨_, hnone hend, ?_⟩
      rw [pushAll_eq, List.nil_append, hlen]
    · rintro rfl
      exact hunknown hend
    · rintro rfl
      exact houtside hend

end Loops

/-- **The two scans of a log**: `analyze` always ends, `initialize_lsn` does if no length is too long; and unless
`analyze` meets an unknown type, they take the same records exactly if no length is too long and every body can be
read. -/
theorem scansAgree_iff {file : Bytes} (hsize : file.length + LOG_BUFFER_SIZE < 2 ^ 31) (pos : ℕ) :
    (∃ offsets o, AnalyzeScan file offsets o) ∧ (NoLongRecord file → ∃ offsets, LsnScan file pos offsets) ∧
      ((∀ offsets, ¬ AnalyzeScan file offsets (some .unknownType)) →
        (ScansAgree file pos ↔ NoLongRecord file ∧ Readable file)) := by
  obtain ⟨l, t, hrun, offset, rfl, hstart⟩ := exists_analyzeRun hsize
  have hanalyze : ∃ o, AnalyzeScan file l o := by
    rcases hnext : nextRecord file offset with e | _ | s'
    · exact ⟨some e, (analyzeScan_iff hsize).mpr ⟨_, hrun, by rw [hnext]; rfl⟩⟩
    · exact ⟨none, (analyzeScan_iff hsize).mpr ⟨_, hrun, by rw [hnext]; rfl⟩⟩
    · exact absurd hnext (hrun.not_go _)
  refine ⟨⟨l, hanalyze⟩, fun hlong => exists_lsnScan hsize hlong pos, fun hknown => ⟨?_, ?_⟩⟩
  · intro hagree
    obtain ⟨o, ho⟩ := hanalyze
    obtain ⟨offsets, l₂, ⟨z, pos'⟩, hrun₂, hstop₂, hl⟩ := hagree.lsn
    have hsame : offsets = l := by
      refine hagree.same offsets l o ⟨l₂, _, hrun₂, hstop₂, hl⟩ ho ?_
      rintro rfl
      exact hknown l ho
    -- both scans stand at the same place at the end
    have hfinal : AtCursor file ⟨z, pos'⟩ ∧ z = (offset : ℤ) := by
      refine Runs.final_eq (f := LogCursor.offset) ?_ hrun₂ ⟨0, rfl, .first⟩ hrun (hl.trans hsame)
      rintro ⟨y, p⟩ s' r ⟨offset', hy, hstart'⟩ hnext hnext'
      obtain rfl : y = offset' := hy
      obtain ⟨length, hheader, hfits, rfl, -⟩ := nextRecord_go hsize hstart'.le hnext'
      rw [nextLsn_fits hsize hheader hfits] at hnext
      cases hnext
      exact ⟨⟨_, rfl, hstart'.next hheader hfits⟩, rfl⟩
    obtain ⟨-, rfl⟩ := hfinal
    have hmisfit : ∀ length, HeaderAt file offset length → ¬ Fits file offset length := fun length hheader hfits =>
      hrun₂.not_go _ (nextLsn_fits hsize hheader hfits)
    have hstop : nextRecord file offset = .ok none := by
      rcases hnext : nextRecord file offset with e | _ | s'
      · obtain ⟨length, hheader, hfits, -⟩ := nextRecord_error hsize hstart hnext
        exact absurd hfits (hmisfit length hheader)
      · rfl
      · exact absurd hnext (hrun.not_go _)
    -- a place before the end is one that `analyze` has gone on from
    have hbefore : ∀ y length, RecordStart file y → HeaderAt file y length → y = offset ∨ Fits file y length ∧
        ∀ code type, headerWord file y OFFSET_LOG_TYPE = some code → LogType.ofCode code = some type →
          deserialize type ((file.drop y).take length.toNat) ≠ none := by
      intro y length hy hheader
      rcases mem_of_start hsize hrun hstop hy with hmem | heq
      · obtain ⟨s', hnext, -⟩ := hrun.next_mem _ hmem
        obtain ⟨length', hheader', hfits, -, hread⟩ := nextRecord_go hsize hy.le hnext
        obtain rfl := hheader.unique hheader'
        exact .inr ⟨hfits, hread⟩
      · exact .inl (by exact_mod_cast heq)
    constructor
    · intro y length hy hheader hlong
      rcases hbefore y length hy hheader with rfl | ⟨hfits, -⟩
      · exact end_of_stop hsize hheader hlong hstop₂
      · exact absurd hfits.2.1 (not_le.mpr hlong)
    · intro y length code type hy hheader hfits hcode htype
      rcases hbefore y length hy hheader with rfl | ⟨-, hread⟩
      · exact absurd hfits (hmisfit length hheader)
      · exact hread code type hcode htype
  · rintro ⟨hlong, hread⟩
    have hstop : nextRecord file offset = .ok none := by
      rcases hnext : nextRecord file offset with e | _ | s'
      · obtain ⟨length, hheader, hfits, rfl | ⟨code, type, hcode, htype, hnone⟩⟩ := nextRecord_error hsize hstart hnext
        · exact absurd ((analyzeScan_iff hsize).mpr ⟨_, hrun, by rw [hnext]; rfl⟩) (hknown l)
        · exact absurd hnone (hread offset length code type hstart hheader hfits hcode htype)
      · rfl
      · exact absurd hnext (hrun.not_go _)
    refine ⟨exists_lsnScan hsize hlong pos, ⟨l, hanalyze⟩, ?_⟩
    rintro offsets offsets' o ⟨l₁, t₁, hrun₁, -, rfl⟩ hscan -
    obtain ⟨t', hrun', -⟩ := (analyzeScan_iff hsize).mp hscan
    obtain ⟨rfl, -⟩ := hrun'.unique hrun
    obtain ⟨l₂, t₂, hrun₂, -, rfl⟩ := lsnRun_of_analyzeRun hsize hlong hrun hstop pos rfl .first
    rw [(hrun₁.unique hrun₂).1]

/-- A transaction has begun. -/
def beginFile : Bytes := logFile [beginRecord 0 1]

theorem recordStart_beginFile {offset : ℕ} (h : RecordStart beginFile offset) : offset = 0 ∨ offset = 20 := by
  induction h with
  | first => exact .inl rfl
  | next _ hheader _ ih =>
    rcases ih with rfl | rfl
    · cases hheader.length
      exact .inr rfl
    · exact absurd hheader.inside (by decide)

theorem nextRecord_beginFile : nextRecord beginFile 0 = .ok (some 20) ∧ nextRecord beginFile 20 = .ok none := by
  decide +kernel

theorem analyzeRun_beginFile : Runs (nextRecord beginFile) 0 [0] 20 :=
  .go nextRecord_beginFile.1 (.done fun s' hs' => by
    rw [nextRecord_beginFile.2] at hs'
    cases hs')

theorem scansAgree_iff_one : (∀ offsets, ¬ AnalyzeScan beginFile offsets (some .unknownType)) ∧ NoLongRecord beginFile ∧
    Readable beginFile ∧ ScansAgree beginFile 0 := by
  have hknown : ∀ offsets, ¬ AnalyzeScan beginFile offsets (some .unknownType) := by
    rintro offsets (⟨-, -, h⟩ | ⟨-, t, hrun, herror⟩)
    · cases h
    · obtain ⟨-, rfl⟩ := hrun.unique analyzeRun_beginFile
      rw [nextRecord_beginFile.2] at herror
      cases herror
  have hlong : NoLongRecord beginFile := by
    intro offset length hstart hheader hlt
    rcases recordStart_beginFile hstart with rfl | rfl
    · cases hheader.length
      exact absurd hlt (by decide)
    · exact absurd hheader.inside (by decide)
  have hread : Readable beginFile := by
    intro offset length code type hstart hheader _ hcode htype hnone
    rcases recordStart_beginFile hstart with rfl | rfl
    · cases hheader.length
      cases hcode
      cases htype
      cases hnone
    · exact absurd hheader.inside (by decide)
  exact ⟨hknown, hlong, hread, ((@scansAgree_iff beginFile (by decide) 0).2.2 hknown).mpr ⟨hlong, hread⟩⟩

/-- A record, and a header behind it whose length is `-20` as an `int`. -/
def backFile : Bytes := logFile [beginRecord 0 1, { beginRecord 1 2 with logTotLen := 4294967276 }]

theorem nextLsn_backFile (pos : ℕ) : nextLsn backFile ⟨0, pos⟩ = .ok (some ⟨20, 20⟩) ∧
    nextLsn backFile ⟨20, pos⟩ = .ok (some ⟨0, 40⟩) := by
  have hsize : backFile.length + LOG_BUFFER_SIZE < 2 ^ 31 := by decide
  have hfirst : HeaderAt backFile 0 20 := ⟨by decide, by decide +kernel⟩
  have hback : HeaderAt backFile 20 4294967276 := ⟨by decide, by decide +kernel⟩
  constructor
  · refine (nextLsn_header hsize hfirst).trans ?_
    decide +kernel
  · refine (nextLsn_header hsize hback).trans ?_
    decide +kernel

theorem not_runs_backFile {s t : LogCursor} {l : List LogCursor} (h : Runs (nextLsn backFile) s l t) :
    s.offset ≠ 0 ∧ s.offset ≠ 20 := by
  induction h with
  | @done s hs =>
    obtain ⟨offset, pos⟩ := s
    constructor <;> rintro rfl
    · exact hs _ (nextLsn_backFile pos).1
    · exact hs _ (nextLsn_backFile pos).2
  | @go s s' _ _ hs _ ih =>
    obtain ⟨offset, pos⟩ := s
    constructor <;> rintro rfl
    · cases hs.symm.trans (nextLsn_backFile pos).1
      exact ih.2 rfl
    · cases hs.symm.trans (nextLsn_backFile pos).2
      exact ih.1 rfl

/-- `initialize_lsn` goes from the second record back to the first, for ever; `analyze` takes the first one. -/
theorem not_scansAgree : backFile.length + LOG_BUFFER_SIZE < 2 ^ 31 ∧ AnalyzeScan backFile [0] none ∧
    (∀ offsets, ¬ LsnScan backFile 0 offsets) ∧ ¬ ScansAgree backFile 0 := by
  have hnever : ∀ offsets, ¬ LsnScan backFile 0 offsets := fun offsets ⟨_, _, hrun, _⟩ => (not_runs_backFile hrun).1 rfl
  have hround : nextRecord backFile 0 = .ok (some 20) ∧ nextRecord backFile 20 = .ok none := by decide +kernel
  have hrun : Runs (nextRecord backFile) 0 [0] 20 := .go hround.1 (.done fun s' hs' => by
    rw [hround.2] at hs'
    cases hs')
  exact ⟨by decide, .inr ⟨by decide, 20, hrun, hround.2⟩, hnever, fun h => h.lsn.elim fun offsets h => hnever offsets h⟩

end Rmdb.Recovery
