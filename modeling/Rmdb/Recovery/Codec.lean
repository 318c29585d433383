import Rmdb.Common.Word
import Rmdb.Lib.Frames
import Mathlib.Data.Finset.Basic

/-!
# Log records as bytes

`serialize` and `deserialize` of the log records, and `RecoveryManager::analyze`, which reads
the records back from the bytes of the log file. A record is its header, five words, and a
payload; the layouts are written and read by the offset arithmetic of the source.
`InsertLogRecord` has its own code for what `DeleteLogRecord` and `UpdateLogRecord` share as
`serialize_record`, `serialize_tail` and their inverses.

A read outside the bytes of a record is `none`. The file size is an `int`, and so are the
offsets of `analyze`: `intOf` is the conversion to it.

`analyzeLoop_eq` says what `analyze` makes of records that were written one after another
and cut off anywhere: the records that lie wholly inside what the file size says.
-/

namespace Rmdb.Recovery

open Lib

/-! ### Records -/

/-- `LogType`. -/
inductive LogType where
  /-- `UPDATE`. -/
  | update
  /-- `INSERT`. -/
  | insert
  /-- `DELETE`. -/
  | delete
  /-- `begin`. -/
  | beginTxn
  /-- `commit`. -/
  | commit
  /-- `ABORT`. -/
  | abort
deriving DecidableEq

/-- The number of a log type. -/
def LogType.code : LogType → UInt32
  | update => 0
  | insert => 1
  | delete => 2
  | beginTxn => 3
  | commit => 4
  | abort => 5

/-- The `switch` of `make_log_record`. -/
def LogType.ofCode (code : UInt32) : Option LogType :=
  if code = 0 then some update
  else if code = 1 then some insert
  else if code = 2 then some delete
  else if code = 3 then some beginTxn
  else if code = 4 then some commit
  else if code = 5 then some abort
  else none

/-- `Rid` as it is stored. -/
structure StoredRid where
  /-- `page_no`. -/
  pageNo : Int32
  /-- `slot_no`. -/
  slotNo : Int32
deriving DecidableEq

/-- What a log record has besides its header. -/
inductive Payload where
  /-- `BeginLogRecord`. -/
  | beginTxn
  /-- `CommitLogRecord`. -/
  | commit
  /-- `AbortLogRecord`. -/
  | abort
  /-- `InsertLogRecord`. -/
  | insert (insertValue : Bytes) (rid : StoredRid) (tableName : Bytes)
  /-- `DeleteLogRecord`. -/
  | delete (deleteValue : Bytes) (rid : StoredRid) (tableName : Bytes)
  /-- `UpdateLogRecord`. -/
  | update (oldValue newValue : Bytes) (rid : StoredRid) (tableName : Bytes)
deriving DecidableEq

/-- The type of a payload. -/
def Payload.logType : Payload → LogType
  | beginTxn => .beginTxn
  | commit => .commit
  | abort => .abort
  | insert _ _ _ => .insert
  | delete _ _ _ => .delete
  | update _ _ _ _ => .update

/-- A log record with all its fields. -/
structure LogEntry where
  /-- `lsn_`. -/
  lsn : Int32
  /-- `log_tot_len_`. -/
  logTotLen : UInt32
  /-- `log_tid_`. -/
  logTid : Int32
  /-- `prev_lsn_`. -/
  prevLsn : Int32
  /-- The rest. -/
  payload : Payload
deriving DecidableEq

/-- `OFFSET_LOG_TYPE`. -/
def OFFSET_LOG_TYPE : ℕ := 0

/-- `OFFSET_LSN`. -/
def OFFSET_LSN : ℕ := 4

/-- `OFFSET_LOG_TOT_LEN`. -/
def OFFSET_LOG_TOT_LEN : ℕ := 8

/-- `OFFSET_LOG_TID`. -/
def OFFSET_LOG_TID : ℕ := 12

/-- `OFFSET_PREV_LSN`. -/
def OFFSET_PREV_LSN : ℕ := 16

/-- `OFFSET_LOG_DATA`. -/
def OFFSET_LOG_DATA : ℕ := 20

/-- `LOG_HEADER_SIZE`. -/
def LOG_HEADER_SIZE : ℕ := 20

/-- `LOG_BUFFER_SIZE`. -/
def LOG_BUFFER_SIZE : ℕ := 1024 * 4096

namespace LogEntry

/-- The length of a record, as its constructor adds it up. -/
def size (r : LogEntry) : ℕ :=
  match r.payload with
  | .beginTxn | .commit | .abort => LOG_HEADER_SIZE
  | .insert v _ name => LOG_HEADER_SIZE + 4 + v.length + 8 + 4 + name.length
  | .delete v _ name => LOG_HEADER_SIZE + (4 + v.length + 8 + 4 + name.length)
  | .update old new _ name => LOG_HEADER_SIZE + (2 * 4 + old.length + new.length + 8 + 4 + name.length)

/-- The record is one that a constructor has made, and not longer than the log buffer. -/
structure Ok (r : LogEntry) : Prop where
  /-- The constructors set `log_tot_len_`. -/
  built : r.logTotLen = UInt32.ofNat r.size
  /-- `add_log_to_buffer` refuses longer ones. -/
  short : r.size ≤ LOG_BUFFER_SIZE

/-! ### Writing -/

/-- `LogRecord::serialize`. -/
def serializeHeader (r : LogEntry) (dest : Bytes) : Bytes :=
  let dest := put dest OFFSET_LOG_TYPE (wordBytes r.payload.logType.code)
  let dest := put dest OFFSET_LSN (int32Bytes r.lsn)
  let dest := put dest OFFSET_LOG_TOT_LEN (wordBytes r.logTotLen)
  let dest := put dest OFFSET_LOG_TID (int32Bytes r.logTid)
  put dest OFFSET_PREV_LSN (int32Bytes r.prevLsn)

/-- The bytes of a `Rid`. -/
def ridBytes (rid : StoredRid) : Bytes := int32Bytes rid.pageNo ++ int32Bytes rid.slotNo

/-- `serialize_record`: the buffer and the offset behind the record. -/
def serializeRecord (dest : Bytes) (offset : ℕ) (record : Bytes) : Bytes × ℕ :=
  let dest := put dest offset (wordBytes (UInt32.ofNat record.length))
  let offset := offset + 4
  (put dest offset record, offset + record.length)

/-- `serialize_tail`. -/
def serializeTail (dest : Bytes) (offset : ℕ) (rid : StoredRid) (tableName : Bytes) : Bytes :=
  let dest := put dest offset (ridBytes rid)
  let offset := offset + 8
  let dest := put dest offset (wordBytes (UInt32.ofNat tableName.length))
  let offset := offset + 4
  put dest offset tableName

/-- `serialize` into the buffer `dest`. -/
def serialize (r : LogEntry) (dest : Bytes) : Bytes :=
  match r.payload with
  | .beginTxn | .commit | .abort => r.serializeHeader dest
  | .insert v rid name =>
    let dest := r.serializeHeader dest
    let offset := OFFSET_LOG_DATA
    let dest := put dest offset (wordBytes (UInt32.ofNat v.length))
    let offset := offset + 4
    let dest := put dest offset v
    let offset := offset + v.length
    let dest := put dest offset (ridBytes rid)
    let offset := offset + 8
    let dest := put dest offset (wordBytes (UInt32.ofNat name.length))
    let offset := offset + 4
    put dest offset name
  | .delete v rid name =>
    let dest := r.serializeHeader dest
    let (dest, offset) := serializeRecord dest OFFSET_LOG_DATA v
    serializeTail dest offset rid name
  | .update old new rid name =>
    let dest := r.serializeHeader dest
    let (dest, offset) := serializeRecord dest OFFSET_LOG_DATA old
    let (dest, offset) := serializeRecord dest offset new
    serializeTail dest offset rid name

/-- The bytes of a record, written into a buffer of its length. -/
def bytes (r : LogEntry) : Bytes := r.serialize (List.replicate r.size 0)

end LogEntry

/-! ### Reading -/

/-- A block whose length is an `int`: allocating a negative number of bytes throws. -/
def readSized (src : Bytes) (offset : ℕ) (size : Int32) : Option Bytes :=
  if size.toInt < 0 then none else readBlock src offset size.toInt.toNat

/-- `deserialize_record`: the record and the offset behind it. -/
def deserializeRecord (src : Bytes) (offset : ℕ) : Option (Bytes × ℕ) := do
  let size ← readInt32 src offset
  let offset := offset + 4
  let record ← readSized src offset size
  some (record, offset + size.toInt.toNat)

/-- A `Rid` at an offset. -/
def readRid (src : Bytes) (offset : ℕ) : Option StoredRid := do
  let pageNo ← readInt32 src offset
  let slotNo ← readInt32 src (offset + 4)
  some ⟨pageNo, slotNo⟩

/-- `deserialize_tail`. -/
def deserializeTail (src : Bytes) (offset : ℕ) : Option (StoredRid × Bytes) := do
  let rid ← readRid src offset
  let offset := offset + 8
  let size ← readWord src offset
  let offset := offset + 4
  let tableName ← readBlock src offset size.toNat
  some (rid, tableName)

/-- What `deserialize` of a record of the type reads behind the header. -/
def deserializePayload (type : LogType) (src : Bytes) : Option Payload :=
  match type with
  | .beginTxn => some .beginTxn
  | .commit => some .commit
  | .abort => some .abort
  | .insert => do
    let size ← readInt32 src OFFSET_LOG_DATA
    let v ← readSized src (OFFSET_LOG_DATA + 4) size
    let offset := OFFSET_LOG_DATA + size.toInt.toNat + 4
    let rid ← readRid src offset
    let offset := offset + 8
    let nameSize ← readWord src offset
    let offset := offset + 4
    let name ← readBlock src offset nameSize.toNat
    some (.insert v rid name)
  | .delete => do
    let (v, offset) ← deserializeRecord src OFFSET_LOG_DATA
    let (rid, name) ← deserializeTail src offset
    some (.delete v rid name)
  | .update => do
    let (old, offset) ← deserializeRecord src OFFSET_LOG_DATA
    let (new, offset) ← deserializeRecord src offset
    let (rid, name) ← deserializeTail src offset
    some (.update old new rid name)

/-- `deserialize` of a record of the type. -/
def deserialize (type : LogType) (src : Bytes) : Option LogEntry := do
  let lsn ← readInt32 src OFFSET_LSN
  let logTotLen ← readWord src OFFSET_LOG_TOT_LEN
  let logTid ← readInt32 src OFFSET_LOG_TID
  let prevLsn ← readInt32 src OFFSET_PREV_LSN
  let payload ← deserializePayload type src
  some ⟨lsn, logTotLen, logTid, prevLsn, payload⟩

/-! ### Reading the log -/

/-- The conversion to `int`. -/
def intOf (x : ℤ) : ℤ := x.bmod (2 ^ 32)

/-- `get_file_size`. -/
def getFileSize (file : Bytes) : ℤ := intOf file.length

/-- `read_log`: the bytes it reads, or `-1` (`none`). -/
def readLog (file : Bytes) (size offset : ℤ) : Option Bytes :=
  if getFileSize file < offset then none
  else some ((file.drop offset.toNat).take (min size (getFileSize file - offset)).toNat)

/-- What ends `analyze` in another way than a return. -/
inductive AnalyzeError where
  /-- `InternalError("unknown log record type")`. -/
  | unknownType
  /-- A read outside the bytes of a record. -/
  | outside
  /-- The bound on the rounds. -/
  | overrun
deriving DecidableEq

/-- What `analyze` finds out. -/
structure Analysis where
  /-- `logs_`. -/
  logs : List LogEntry
  /-- `committed_txns_`. -/
  committedTxns : Finset Int32
  /-- `aborted_txns_`. -/
  abortedTxns : Finset Int32
deriving DecidableEq

/-- The transaction of a record with the payload is added to a set. -/
def note (payload : Payload) (txns : Finset Int32) (r : LogEntry) : Finset Int32 :=
  if r.payload = payload then insert r.logTid txns else txns

/-- One more record. -/
def Analysis.push (a : Analysis) (r : LogEntry) : Analysis where
  logs := a.logs ++ [r]
  committedTxns := note .commit a.committedTxns r
  abortedTxns := note .abort a.abortedTxns r

/-- The loop of `analyze`. -/
def analyzeLoop (file : Bytes) : ℕ → ℤ → Analysis → Except AnalyzeError Analysis
  | 0, _, _ => .error .overrun
  | bound + 1, offset, a =>
    if intOf (offset + LOG_HEADER_SIZE) ≤ getFileSize file then
      match readLog file LOG_HEADER_SIZE offset with
      | none => .ok a
      | some header =>
        if header.length ≠ LOG_HEADER_SIZE then .ok a
        else match readWord header OFFSET_LOG_TYPE, readWord header OFFSET_LOG_TOT_LEN with
          | some type, some length =>
            if length.toNat < LOG_HEADER_SIZE ∨ LOG_BUFFER_SIZE < length.toNat ∨
                getFileSize file < intOf (offset + length.toNat) then .ok a
            else match readLog file length.toNat offset with
              | none => .ok a
              | some bytes =>
                if bytes.length ≠ length.toNat then .ok a
                else match LogType.ofCode type with
                  | none => .error .unknownType
                  | some type => match deserialize type bytes with
                    | none => .error .outside
                    | some record => analyzeLoop file bound (intOf (offset + length.toNat)) (a.push record)
          | _, _ => .error .outside
    else .ok a

/-- `RecoveryManager::analyze`. -/
def analyze (file : Bytes) : Except AnalyzeError Analysis :=
  if getFileSize file ≤ 0 then .ok ⟨[], ∅, ∅⟩
  else analyzeLoop file (file.length + 1) 0 ⟨[], ∅, ∅⟩

/-! ### The layout -/

namespace LogEntry

/-- The bytes of the header. -/
def headerBytes (r : LogEntry) : Bytes :=
  wordBytes r.payload.logType.code ++
    (int32Bytes r.lsn ++ (wordBytes r.logTotLen ++ (int32Bytes r.logTid ++ int32Bytes r.prevLsn)))

/-- A record with its length before it. -/
def sizedBytes (v : Bytes) : Bytes := wordBytes (UInt32.ofNat v.length) ++ v

/-- The bytes of the payload. -/
def payloadBytes : Payload → Bytes
  | .beginTxn | .commit | .abort => []
  | .insert v rid name | .delete v rid name => sizedBytes v ++ (ridBytes rid ++ sizedBytes name)
  | .update old new rid name => sizedBytes old ++ (sizedBytes new ++ (ridBytes rid ++ sizedBytes name))

@[simp] theorem length_headerBytes (r : LogEntry) : r.headerBytes.length = LOG_HEADER_SIZE := by
  simp [headerBytes, LOG_HEADER_SIZE]

@[simp] theorem length_ridBytes (rid : StoredRid) : (ridBytes rid).length = 8 := by
  simp [ridBytes]

@[simp] theorem length_sizedBytes (v : Bytes) : (sizedBytes v).length = 4 + v.length := by
  simp [sizedBytes]

theorem size_eq (r : LogEntry) : r.size = LOG_HEADER_SIZE + (payloadBytes r.payload).length := by
  unfold size
  cases r.payload <;> simp [payloadBytes] <;> omega

theorem serializeHeader_eq (r : LogEntry) (dest : Bytes) :
    r.serializeHeader dest = r.headerBytes ++ dest.drop LOG_HEADER_SIZE := by
  unfold serializeHeader
  simp only [OFFSET_LOG_TYPE, put_zero, length_wordBytes]
  rw [put_append (by simp [OFFSET_LSN]), put_append (by simp [OFFSET_LOG_TOT_LEN]), put_append (by simp [OFFSET_LOG_TID]),
    put_append (by simp [OFFSET_PREV_LSN])]
  simp [headerBytes, LOG_HEADER_SIZE]

theorem serializeRecord_append {A B v : Bytes} {offset : ℕ} (h : offset = A.length) :
    serializeRecord (A ++ B) offset v =
      ((A ++ sizedBytes v) ++ B.drop (sizedBytes v).length, (A ++ sizedBytes v).length) := by
  unfold serializeRecord
  simp only
  rw [put_append h, put_append (by simp [h])]
  simp [sizedBytes, h]
  omega

theorem serializeTail_append {A B name : Bytes} {rid : StoredRid} {offset : ℕ} (h : offset = A.length) :
    serializeTail (A ++ B) offset rid name =
      (A ++ (ridBytes rid ++ sizedBytes name)) ++ B.drop (ridBytes rid ++ sizedBytes name).length := by
  unfold serializeTail
  simp only
  rw [put_append h, put_append (by simp [h]), put_append (by simp [h])]
  simp [sizedBytes]
  omega

/-- **`serialize`** writes the header and the payload, and nothing behind them. -/
theorem serialize_eq (r : LogEntry) (dest : Bytes) :
    r.serialize dest = (r.headerBytes ++ payloadBytes r.payload) ++ dest.drop r.size := by
  have hdata : OFFSET_LOG_DATA = r.headerBytes.length := by simp [OFFSET_LOG_DATA, LOG_HEADER_SIZE]
  rw [size_eq, ← List.drop_drop]
  unfold serialize
  split
  · rename_i hp
    simp [hp, payloadBytes, serializeHeader_eq]
  · rename_i hp
    simp [hp, payloadBytes, serializeHeader_eq]
  · rename_i hp
    simp [hp, payloadBytes, serializeHeader_eq]
  · rename_i v rid name hp
    simp only [hp, serializeHeader_eq, payloadBytes]
    rw [put_append hdata, put_append (by simp [hdata]), put_append (by simp [hdata, Nat.add_assoc]),
      put_append (by simp [hdata, Nat.add_assoc]), put_append (by simp [hdata, Nat.add_assoc])]
    simp [sizedBytes]
    omega
  · rename_i v rid name hp
    simp only [hp, serializeHeader_eq, payloadBytes]
    rw [serializeRecord_append hdata, serializeTail_append rfl]
    simp [List.drop_drop, Nat.add_assoc]
  · rename_i old new rid name hp
    simp only [hp, serializeHeader_eq, payloadBytes]
    rw [serializeRecord_append hdata, serializeRecord_append rfl, serializeTail_append rfl]
    simp [List.drop_drop, Nat.add_assoc]

theorem bytes_eq (r : LogEntry) : r.bytes = r.headerBytes ++ payloadBytes r.payload := by
  rw [bytes, serialize_eq]
  simp

@[simp] theorem length_bytes (r : LogEntry) : r.bytes.length = r.size := by
  rw [bytes_eq, List.length_append, length_headerBytes, size_eq]

end LogEntry

/-! ### The round trip -/

open LogEntry

@[simp] theorem LogType.ofCode_code (type : LogType) : LogType.ofCode type.code = some type := by
  cases type <;> rfl

/-- A block with its length before it is read back. -/
theorem readSized_append {A B v src : Bytes} {offset : ℕ} (hv : v.length < 2 ^ 31) (hsrc : src = A ++ (sizedBytes v ++ B))
    (ho : offset = A.length) :
    ∃ size, readInt32 src offset = some size ∧ size.toInt.toNat = v.length ∧ readSized src (offset + 4) size = some v := by
  have hword : src = A ++ (wordBytes (UInt32.ofNat v.length) ++ (v ++ B)) := by rw [hsrc]; simp [sizedBytes]
  have hint : (Int32.ofNat v.length).toInt = v.length := Int32.toInt_ofNat_of_lt hv
  refine ⟨Int32.ofNat v.length, ?_, by simp [hint], ?_⟩
  · rw [readInt32, readWord_append hword ho, Option.map_some, UInt32.toInt32_ofNat']
  · rw [readSized, hint, if_neg (by omega)]
    refine readBlock_append (A := A ++ wordBytes (UInt32.ofNat v.length)) (B := B) ?_ (by simp [ho]) (by simp)
    rw [hword]
    simp

theorem deserializeRecord_append {A B v src : Bytes} {offset : ℕ} (hv : v.length < 2 ^ 31)
    (hsrc : src = A ++ (sizedBytes v ++ B)) (ho : offset = A.length) :
    deserializeRecord src offset = some (v, (A ++ sizedBytes v).length) := by
  obtain ⟨size, h1, h2, h3⟩ := readSized_append hv hsrc ho
  simp only [deserializeRecord, h1, h3, h2, Option.bind_eq_bind, Option.bind_some, List.length_append,
    length_sizedBytes, ← ho, Nat.add_assoc]

theorem readRid_append {A B src : Bytes} {rid : StoredRid} {offset : ℕ} (hsrc : src = A ++ (ridBytes rid ++ B))
    (ho : offset = A.length) : readRid src offset = some rid := by
  have h1 : readInt32 src offset = some rid.pageNo :=
    readInt32_append (B := int32Bytes rid.slotNo ++ B) (by rw [hsrc]; simp [ridBytes]) ho
  have h2 : readInt32 src (offset + 4) = some rid.slotNo :=
    readInt32_append (A := A ++ int32Bytes rid.pageNo) (B := B) (by rw [hsrc]; simp [ridBytes]) (by simp [ho])
  simp only [readRid, h1, h2, Option.bind_eq_bind, Option.bind_some]

/-- A name with its length before it is read back. -/
theorem readName_append {A B name src : Bytes} {offset : ℕ} (hname : name.length < 2 ^ 31)
    (hsrc : src = A ++ (sizedBytes name ++ B)) (ho : offset = A.length) :
    ∃ size, readWord src offset = some size ∧ readBlock src (offset + 4) size.toNat = some name := by
  refine ⟨UInt32.ofNat name.length, readWord_append (B := name ++ B) (by rw [hsrc]; simp [sizedBytes]) ho, ?_⟩
  have hnat : (UInt32.ofNat name.length).toNat = name.length := UInt32.toNat_ofNat_of_lt' (by rw [UInt32.size]; omega)
  exact readBlock_append (A := A ++ wordBytes (UInt32.ofNat name.length)) (B := B) (by rw [hsrc]; simp [sizedBytes])
    (by simp [ho]) hnat

theorem deserializeTail_append {A B name src : Bytes} {rid : StoredRid} {offset : ℕ} (hname : name.length < 2 ^ 31)
    (hsrc : src = A ++ (ridBytes rid ++ (sizedBytes name ++ B))) (ho : offset = A.length) :
    deserializeTail src offset = some (rid, name) := by
  have hname' : src = (A ++ ridBytes rid) ++ (sizedBytes name ++ B) := by rw [hsrc]; simp
  obtain ⟨size, h1, h2⟩ := readName_append hname hname' rfl
  have hoff : (A ++ ridBytes rid).length = offset + 8 := by simp [ho]
  rw [hoff] at h1 h2
  simp only [deserializeTail, readRid_append hsrc ho, h1, h2, Option.bind_eq_bind, Option.bind_some]

theorem deserializePayload_append {A B src : Bytes} {p : Payload} (hsrc : src = A ++ (payloadBytes p ++ B))
    (hA : A.length = OFFSET_LOG_DATA) (hp : (payloadBytes p).length < 2 ^ 31) :
    deserializePayload p.logType src = some p := by
  cases p with
  | beginTxn => rfl
  | commit => rfl
  | abort => rfl
  | insert v rid name =>
    simp only [payloadBytes, List.length_append, length_sizedBytes, length_ridBytes] at hp
    have hv : src = A ++ (sizedBytes v ++ (ridBytes rid ++ (sizedBytes name ++ B))) := by rw [hsrc]; simp [payloadBytes]
    have hr : src = (A ++ sizedBytes v) ++ (ridBytes rid ++ (sizedBytes name ++ B)) := by rw [hv]; simp
    have hn : src = (A ++ sizedBytes v ++ ridBytes rid) ++ (sizedBytes name ++ B) := by rw [hv]; simp
    obtain ⟨size, h1, h2, h3⟩ := readSized_append (by omega) hv hA.symm
    have h4 : readRid src (OFFSET_LOG_DATA + v.length + 4) = some rid := readRid_append hr (by simp [hA]; omega)
    obtain ⟨nameSize, h5, h6⟩ := readName_append (by omega) hn rfl
    have hoff : (A ++ sizedBytes v ++ ridBytes rid).length = OFFSET_LOG_DATA + v.length + 4 + 8 := by
      simp [hA]
      omega
    rw [hoff] at h5 h6
    simp only [Payload.logType, deserializePayload, h1, h2, h3, h4, h5, h6, Option.bind_eq_bind, Option.bind_some]
  | delete v rid name =>
    simp only [payloadBytes, List.length_append, length_sizedBytes, length_ridBytes] at hp
    have hv : src = A ++ (sizedBytes v ++ (ridBytes rid ++ (sizedBytes name ++ B))) := by rw [hsrc]; simp [payloadBytes]
    have hr : src = (A ++ sizedBytes v) ++ (ridBytes rid ++ (sizedBytes name ++ B)) := by rw [hv]; simp
    have h1 := deserializeRecord_append (by omega) hv hA.symm
    have h2 := deserializeTail_append (by omega) hr rfl
    simp only [Payload.logType, deserializePayload, h1, h2, Option.bind_eq_bind, Option.bind_some]
  | update old new rid name =>
    simp only [payloadBytes, List.length_append, length_sizedBytes, length_ridBytes] at hp
    have ho : src = A ++ (sizedBytes old ++ (sizedBytes new ++ (ridBytes rid ++ (sizedBytes name ++ B)))) := by
      rw [hsrc]
      simp [payloadBytes]
    have hn : src = (A ++ sizedBytes old) ++ (sizedBytes new ++ (ridBytes rid ++ (sizedBytes name ++ B))) := by rw [ho]; simp
    have hr : src = (A ++ sizedBytes old ++ sizedBytes new) ++ (ridBytes rid ++ (sizedBytes name ++ B)) := by rw [ho]; simp
    have h1 := deserializeRecord_append (by omega) ho hA.symm
    have h2 := deserializeRecord_append (by omega) hn rfl
    have h3 := deserializeTail_append (by omega) hr rfl
    simp only [Payload.logType, deserializePayload, h1, h2, h3, Option.bind_eq_bind, Option.bind_some]

/-- The words of the header, in the bytes of a record or in its header alone. -/
theorem readHeader (r : LogEntry) (B : Bytes) :
    readWord (r.headerBytes ++ B) OFFSET_LOG_TYPE = some r.payload.logType.code ∧
      readInt32 (r.headerBytes ++ B) OFFSET_LSN = some r.lsn ∧
      readWord (r.headerBytes ++ B) OFFSET_LOG_TOT_LEN = some r.logTotLen ∧
      readInt32 (r.headerBytes ++ B) OFFSET_LOG_TID = some r.logTid ∧
      readInt32 (r.headerBytes ++ B) OFFSET_PREV_LSN = some r.prevLsn := by
  set type := wordBytes r.payload.logType.code with htype
  refine ⟨readWord_append (A := []) (by simp [headerBytes]; rfl) rfl,
    readInt32_append (A := type) (by simp [headerBytes, htype]; rfl) (by simp [htype, OFFSET_LSN]),
    readWord_append (A := type ++ int32Bytes r.lsn) (by simp [headerBytes, htype]; rfl)
      (by simp [htype, OFFSET_LOG_TOT_LEN]),
    readInt32_append (A := type ++ (int32Bytes r.lsn ++ wordBytes r.logTotLen)) (by simp [headerBytes, htype]; rfl)
      (by simp [htype, OFFSET_LOG_TID]),
    readInt32_append (A := type ++ (int32Bytes r.lsn ++ (wordBytes r.logTotLen ++ int32Bytes r.logTid)))
      (by simp [headerBytes, htype]; rfl) (by simp [htype, OFFSET_PREV_LSN])⟩

/-- **A record is read back as it was written**, field for field. -/
theorem deserialize_bytes {r : LogEntry} (h : r.Ok) : deserialize r.payload.logType r.bytes = some r := by
  have hp : deserializePayload r.payload.logType r.bytes = some r.payload := by
    have hlen := h.short
    rw [size_eq] at hlen
    have hbuf : LOG_BUFFER_SIZE < 2 ^ 31 := by decide
    refine deserializePayload_append (A := r.headerBytes) (B := []) ?_ (length_headerBytes r) (by omega)
    rw [List.append_nil, bytes_eq]
  obtain ⟨-, h1, h2, h3, h4⟩ := readHeader r (payloadBytes r.payload)
  rw [← bytes_eq] at h1 h2 h3 h4
  simp only [deserialize, h1, h2, h3, h4, hp, Option.bind_eq_bind, Option.bind_some]

end Rmdb.Recovery
