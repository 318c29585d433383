import Rmdb.Common.Text
import Rmdb.Recovery.Codec
import Rmdb.System.IndexNames

/-!
# The response to a request

`client_handler` answers a request in `data_send`, a buffer of `BUFFER_LENGTH` bytes.
`RecordPrinter` keeps `RECORD_COUNT_LENGTH` bytes free behind everything it prints, for the
number of records at the end, and sets `ellipsis_` where something has no room. What an
exception has to say is copied to the start of the buffer: clamped if it is any
`std::exception`, but not if it is an `RMDBError`, whose text holds names and literals of the
request.

A context keeps all writes to the buffer. They stay inside it, and so does the response,
exactly if the text of an error is not too long (`response_inside_iff`).
-/

namespace Rmdb.Server

open Recovery (intOf)
open Rmdb.Parser (bytes)

/-! ### Errors -/

/-- The subclasses of `RMDBError`, with what they are made of. -/
inductive RMDBError where
  /-- `InternalError`. -/
  | internal (msg : Bytes)
  /-- `UnixError`: the text of `strerror(errno)`. -/
  | unix (strerror : Bytes)
  /-- `FileNotOpenError`. -/
  | fileNotOpen (fd : ℤ)
  /-- `FileNotClosedError`. -/
  | fileNotClosed (filename : Bytes)
  /-- `FileExistsError`. -/
  | fileExists (filename : Bytes)
  /-- `FileNotFoundError`. -/
  | fileNotFound (filename : Bytes)
  /-- `RecordNotFoundError`. -/
  | recordNotFound (pageNo slotNo : ℤ)
  /-- `InvalidRecordSizeError`. -/
  | invalidRecordSize (recordSize : ℤ)
  /-- `InvalidColLengthError`. -/
  | invalidColLength (colLen : ℤ)
  /-- `IndexEntryNotFoundError`. -/
  | indexEntryNotFound
  /-- `DatabaseNotFoundError`. -/
  | databaseNotFound (dbName : Bytes)
  /-- `DatabaseExistsError`. -/
  | databaseExists (dbName : Bytes)
  /-- `TableNotFoundError`. -/
  | tableNotFound (tabName : Bytes)
  /-- `TableExistsError`. -/
  | tableExists (tabName : Bytes)
  /-- `ColumnNotFoundError`. -/
  | columnNotFound (colName : Bytes)
  /-- `IndexNotFoundError`. -/
  | indexNotFound (tabName : Bytes) (colNames : List Bytes)
  /-- `IndexExistsError`. -/
  | indexExists (tabName : Bytes) (colNames : List Bytes)
  /-- `InvalidValueCountError`. -/
  | invalidValueCount
  /-- `StringOverflowError`. -/
  | stringOverflow
  /-- `ValueOutOfRangeError`. -/
  | valueOutOfRange (typeName value : Bytes)
  /-- `InvalidDateTimeError`. -/
  | invalidDateTime (value : Bytes)
  /-- `IncompatibleTypeError`. -/
  | incompatibleType (lhs rhs : Bytes)
  /-- `AmbiguousColumnError`. -/
  | ambiguousColumn (colName : Bytes)
  /-- `PageNotExistError`. -/
  | pageNotExist (tableName : Bytes) (pageNo : ℤ)

namespace RMDBError

/-- The names of the columns in a text about an index. -/
def columns (tabName : Bytes) (colNames : List Bytes) : Bytes :=
  tabName ++ bytes ".(" ++ (bytes ", ").intercalate colNames ++ bytes ")"

/-- What is said behind `Error: `. -/
def text : RMDBError → Bytes
  | internal msg => msg
  | unix strerror => strerror
  | fileNotOpen fd => bytes "Invalid file descriptor: " ++ toText fd
  | fileNotClosed filename => bytes "File is opened: " ++ filename
  | fileExists filename => bytes "File already exists: " ++ filename
  | fileNotFound filename => bytes "File not found: " ++ filename
  | recordNotFound pageNo slotNo =>
    bytes "Record not found: (" ++ toText pageNo ++ bytes "," ++ toText slotNo ++ bytes ")"
  | invalidRecordSize recordSize => bytes "Invalid record size: " ++ toText recordSize
  | invalidColLength colLen => bytes "Invalid column length: " ++ toText colLen
  | indexEntryNotFound => bytes "Index entry not found"
  | databaseNotFound dbName => bytes "Database not found: " ++ dbName
  | databaseExists dbName => bytes "Database already exists: " ++ dbName
  | tableNotFound tabName => bytes "Table not found: " ++ tabName
  | tableExists tabName => bytes "Table already exists: " ++ tabName
  | columnNotFound colName => bytes "Column not found: " ++ colName
  | indexNotFound tabName colNames => bytes "Index not found: " ++ columns tabName colNames
  | indexExists tabName colNames => bytes "Index already exists: " ++ columns tabName colNames
  | invalidValueCount => bytes "Invalid value count"
  | stringOverflow => bytes "String is too long"
  | valueOutOfRange typeName value => bytes "Value out of range for " ++ typeName ++ bytes ": " ++ value
  | invalidDateTime value => bytes "Invalid datetime: " ++ value
  | incompatibleType lhs rhs => bytes "Incompatible type error: lhs " ++ lhs ++ bytes ", rhs " ++ rhs
  | ambiguousColumn colName => bytes "Ambiguous column: " ++ colName
  | pageNotExist tableName pageNo =>
    bytes "Page " ++ toText pageNo ++ bytes " in table " ++ tableName ++ bytes "not exits"

/-- `_msg`. -/
def msg (e : RMDBError) : Bytes := bytes "Error: " ++ e.text

/-- `get_msg_len`, an `int`. -/
def getMsgLen (e : RMDBError) : ℤ := intOf e.msg.length

end RMDBError

/-! ### The buffer -/

/-- The bytes of `data_send`. -/
def BUFFER_LENGTH : ℕ := 8192

/-- What `RecordPrinter` keeps free for the number of records. -/
def RECORD_COUNT_LENGTH : ℕ := 40

/-- A `memcpy` to the buffer. -/
structure Write where
  /-- Where it goes. -/
  pos : ℤ
  /-- What is there to copy. -/
  text : Bytes
  /-- How many bytes are copied. -/
  len : ℕ

/-- It writes inside the buffer only. -/
def Write.Inside (w : Write) : Prop := 0 ≤ w.pos ∧ w.pos + w.len ≤ BUFFER_LENGTH

/-- What a request prints to. -/
structure Context where
  /-- The writes to `data_send_`. -/
  writes : List Write
  /-- `*offset_`. -/
  offset : ℤ
  /-- `ellipsis_`. -/
  ellipsis : Bool

namespace Context

/-- `memcpy`. A length that is a negative `int` becomes a large `size_t`. -/
def memcpy (ctx : Context) (pos : ℤ) (text : Bytes) (len : ℤ) : Context :=
  { ctx with writes := ctx.writes ++ [⟨pos, text, (len % 2 ^ 64).toNat⟩] }

/-- The assignment of one byte. -/
def setByte (ctx : Context) (pos : ℤ) (c : Char) : Context := ctx.memcpy pos (bytes c.toString) 1

/-- A `memcpy` behind what is there. -/
def append (ctx : Context) (str : Bytes) : Context :=
  { ctx.memcpy ctx.offset str str.length with offset := ctx.offset + str.length }

/-- The buffer of a request: it is cleared. -/
def start : Context := memcpy ⟨[], 0, false⟩ 0 (List.replicate BUFFER_LENGTH 0) BUFFER_LENGTH

/-- A text at the start of the buffer, with a new line behind it. -/
def answer (ctx : Context) (msg : Bytes) (len : ℤ) : Context :=
  { (((ctx.memcpy 0 msg len).setByte len '\n').setByte (len + 1) '\x00') with offset := len + 1 }

/-- `msg_len`, where a text is clamped. -/
def clamp (msg : Bytes) : ℤ := min (intOf msg.length) (BUFFER_LENGTH - 2)

/-- All writes so far went to the buffer. -/
def Inside (ctx : Context) : Prop := ∀ w ∈ ctx.writes, w.Inside

/-- The response: what was written is in the buffer, and so is what is sent. -/
structure Ok (ctx : Context) : Prop where
  inside : ctx.Inside
  sent : ctx.offset + 1 ≤ BUFFER_LENGTH

end Context

/-! ### `RecordPrinter` -/

namespace RecordPrinter

/-- `COL_WIDTH`. -/
def COL_WIDTH : ℕ := 16

/-- There is room for a text. -/
def hasRoom (ctx : Context) (str : Bytes) : Bool :=
  ctx.ellipsis = false && ctx.offset + RECORD_COUNT_LENGTH + str.length < BUFFER_LENGTH

/-- A text, if there is room, else the ellipsis. -/
def print (str : Bytes) (ctx : Context) : Context :=
  if hasRoom ctx str then ctx.append str else { ctx with ellipsis := true }

/-- `print_separator`. -/
def printSeparator (numCols : ℕ) (ctx : Context) : Context :=
  let str := bytes "+" ++ List.replicate (COL_WIDTH + 2) '-'.toUInt8
  print (bytes "+\n") ((print str)^[numCols] ctx)

/-- A column of a record. -/
def cell (col : Bytes) : Bytes :=
  let col := if COL_WIDTH < col.length then col.take (COL_WIDTH - 3) ++ bytes "..." else col
  bytes "| " ++ setw 32 COL_WIDTH col ++ bytes " "

/-- `print_record`. The end of the line does not set the ellipsis. -/
def printRecord (recStr : List Bytes) (ctx : Context) : Context :=
  let ctx := recStr.foldl (fun ctx col => print (cell col) ctx) ctx
  if hasRoom ctx (bytes "|\n") then ctx.append (bytes "|\n") else ctx

/-- `print_record_count`. -/
def printRecordCount (numRec : ℕ) (ctx : Context) : Context :=
  ctx.append ((if ctx.ellipsis then bytes "... ...\n" else []) ++
    (bytes "Total record(s): " ++ toText numRec ++ bytes "\n"))

end RecordPrinter

/-! ### What a statement prints -/

open RecordPrinter

/-- `coltype2str`. -/
def coltype2str : ColType → Bytes
  | .int => bytes "INT"
  | .float => bytes "FLOAT"
  | .string => bytes "STRING"
  | .bigint => bytes "BIGINT"
  | .datetime => bytes "DATETIME"

/-- The lines of `help_info`. -/
def helpLines : List String :=
  ["Supported SQL syntax:",
    "  command ;",
    "command:",
    "  CREATE TABLE table_name (column_name type [, column_name type ...])",
    "  DROP TABLE table_name",
    "  CREATE INDEX table_name (column_name)",
    "  DROP INDEX table_name (column_name)",
    "  INSERT INTO table_name VALUES (value [, value ...])",
    "  DELETE FROM table_name [WHERE where_clause]",
    "  UPDATE table_name SET column_name = value [, column_name = value ...] [WHERE where_clause]",
    "  SELECT selector FROM table_name [WHERE where_clause]",
    "type:",
    "  \x7bINT | FLOAT | CHAR(n)\x7d",
    "where_clause:",
    "  condition [AND condition ...]",
    "condition:",
    "  column op \x7bcolumn | value\x7d",
    "column:",
    "  [table_name.]column_name",
    "op:",
    "  \x7b= | <> | < | > | <= | >=\x7d",
    "selector:",
    "  \x7b* | column [, column ...]\x7d"]

/-- `help_info`. -/
def helpInfo : String := helpLines.foldr (fun line text => line ++ "\n" ++ text) ""

/-- What a statement prints, as far as it comes. -/
inductive Output where
  /-- Nothing. -/
  | nothing
  /-- `HELP`. -/
  | help
  /-- `show_tables`. -/
  | showTables (tables : List String)
  /-- `show_index`. -/
  | showIndex (tab : Catalog.TabMeta)
  /-- `desc_table`. -/
  | descTable (tab : Catalog.TabMeta)
  /-- `select_from`: the captions, and the texts of the records that have been read; `complete` if they all have been. -/
  | select (captions : List String) (rows : List (List Bytes)) (complete : Bool)

/-- The columns of an index as `show_index` prints them. -/
def indexCols (index : Catalog.IndexMeta) : Bytes :=
  bytes "(" ++ (bytes ",").intercalate (index.cols.map fun col => bytes col.name) ++ bytes ")"

/-- What is printed. -/
def Output.print (ctx : Context) : Output → Context
  | nothing => ctx
  | help =>
    let text := bytes helpInfo
    { ctx.memcpy ctx.offset text text.length with offset := text.length }
  | showTables tables =>
    let ctx := printSeparator 1 (printRecord [bytes "Tables"] (printSeparator 1 ctx))
    printSeparator 1 (tables.foldl (fun ctx tab => printRecord [bytes tab] ctx) ctx)
  | showIndex tab =>
    if tab.indexes = [] then ctx
    else
      let line (index : Catalog.IndexMeta) := [bytes tab.name, bytes "unique", indexCols index]
      printSeparator 3 (tab.indexes.foldl (fun ctx index => printRecord (line index) ctx) (printSeparator 3 ctx))
  | descTable tab =>
    let ctx := printSeparator 3 (printRecord [bytes "Field", bytes "Type", bytes "Index"] (printSeparator 3 ctx))
    let line (col : Catalog.ColMeta) := [bytes col.name, coltype2str col.type, bytes (if col.index then "YES" else "NO")]
    printSeparator 3 (tab.cols.foldl (fun ctx col => printRecord (line col) ctx) ctx)
  | select captions rows complete =>
    let numCols := captions.length
    let ctx := printSeparator numCols (printRecord (captions.map bytes) (printSeparator numCols ctx))
    let ctx := rows.foldl (fun ctx columns => printRecord columns ctx) ctx
    if complete then printRecordCount rows.length (printSeparator numCols ctx) else ctx

/-! ### `client_handler` -/

/-- What becomes of a request that is answered. What was printed before an exception is in the buffer already. -/
inductive Outcome where
  /-- The statement is run. An empty request prints nothing. -/
  | done (out : Output)
  /-- `TransactionAbortException`. -/
  | abort (out : Output)
  /-- An `RMDBError`. -/
  | rmdbError (out : Output) (e : RMDBError)
  /-- Another `std::exception`, with its `what`. -/
  | exception (out : Output) (what : Bytes)
  /-- Anything else that is thrown. -/
  | unknown (out : Output)
  /-- The request cannot be parsed. -/
  | parseError (intOutOfRange : Bool)

/-- The number of records is one that `RECORD_COUNT_LENGTH` is meant for. -/
def Output.Countable : Output → Prop
  | select _ rows _ => rows.length < 10 ^ 14
  | _ => True

/-- What is printed before the answer. -/
def Outcome.output : Outcome → Output
  | done out | abort out | rmdbError out _ | exception out _ | unknown out => out
  | parseError _ => .nothing

/-- `client_handler` from where the buffer is cleared to the `write` of the response. -/
def clientHandler (o : Outcome) : Context :=
  let ctx := o.output.print Context.start
  match o with
  | .done _ => ctx
  | .abort _ => { ((ctx.memcpy 0 (bytes "abort\n") 6).setByte 6 '\x00') with offset := 6 }
  | .rmdbError _ e => ctx.answer e.msg e.getMsgLen
  | .exception _ what =>
    let msg := bytes "Error: " ++ what
    ctx.answer msg (Context.clamp msg)
  | .unknown _ =>
    let msg := bytes "Error: unknown execution error"
    ctx.answer msg msg.length
  | .parseError intOutOfRange =>
    let msg := bytes (if intOutOfRange then "Error: integer literal out of range" else "Error: parse error")
    ctx.answer msg (Context.clamp msg)

/-- The text of an error leaves room for a new line and a zero; and no text has a length that is a negative `int`. -/
def Outcome.Short : Outcome → Prop
  | rmdbError _ e => 0 ≤ e.getMsgLen ∧ e.getMsgLen ≤ BUFFER_LENGTH - 2
  | exception _ what => 0 ≤ intOf (bytes "Error: " ++ what).length
  | _ => True

/-! ### Where the writes go -/

section Writes

variable {ctx : Context}

theorem inside_memcpy (h : ctx.Inside) {pos len : ℤ} (text : Bytes) (hpos : 0 ≤ pos) (hlen : 0 ≤ len)
    (hend : pos + len ≤ BUFFER_LENGTH) : (ctx.memcpy pos text len).Inside := by
  intro w hw
  rcases List.mem_append.mp hw with hw | hw
  · exact h w hw
  · obtain rfl := List.mem_singleton.mp hw
    have hmod : ((len % 2 ^ 64).toNat : ℤ) = len := by
      rw [BUFFER_LENGTH] at hend
      omega
    exact ⟨hpos, by rw [hmod]; exact hend⟩

/-- Of what is written last. -/
theorem inside_of_memcpy {pos len : ℤ} {text : Bytes} (h : (ctx.memcpy pos text len).Inside) :
    0 ≤ pos ∧ pos + (len % 2 ^ 64).toNat ≤ BUFFER_LENGTH :=
  h _ (List.mem_append_right _ (List.mem_singleton_self _))

theorem Inside.of_memcpy {pos len : ℤ} {text : Bytes} (h : (ctx.memcpy pos text len).Inside) : ctx.Inside :=
  fun w hw => h w (List.mem_append_left _ hw)

theorem inside_start : Context.start.Inside := by
  have hnone : (⟨[], 0, false⟩ : Context).Inside := fun w hw => absurd hw List.not_mem_nil
  exact inside_memcpy hnone _ (le_refl 0) (Int.natCast_nonneg _) (by omega)

/-- **A text at the start** stays in the buffer exactly if two bytes are left behind it. -/
theorem ok_answer_iff (h : ctx.Inside) (msg : Bytes) (len : ℤ) :
    (ctx.answer msg len).Ok ↔ 0 ≤ len ∧ len ≤ BUFFER_LENGTH - 2 := by
  constructor
  · rintro ⟨hinside, -⟩
    have hzero : len + 1 + 1 ≤ BUFFER_LENGTH := (inside_of_memcpy hinside).2
    have hline : 0 ≤ len := (inside_of_memcpy (Inside.of_memcpy hinside)).1
    exact ⟨hline, by omega⟩
  · rintro ⟨hlen, hend⟩
    have hmsg := inside_memcpy h msg (le_refl 0) hlen (by omega)
    have hline := inside_memcpy hmsg (bytes '\n'.toString) hlen Int.one_nonneg (by omega)
    refine ⟨inside_memcpy hline _ (Int.add_nonneg hlen Int.one_nonneg) Int.one_nonneg (by omega), ?_⟩
    change len + 1 + 1 ≤ BUFFER_LENGTH
    omega

theorem clamp_le (msg : Bytes) : Context.clamp msg ≤ BUFFER_LENGTH - 2 := min_le_right _ _

theorem clamp_nonneg_iff (msg : Bytes) : 0 ≤ Context.clamp msg ↔ 0 ≤ intOf msg.length := by
  have hbuf : (0 : ℤ) ≤ BUFFER_LENGTH - 2 := by decide
  rw [Context.clamp, le_min_iff]
  exact and_iff_left hbuf

end Writes

/-! ### What is printed -/

/-- There is room for the number of records. -/
structure Room (ctx : Context) : Prop where
  inside : ctx.Inside
  nonneg : 0 ≤ ctx.offset
  room : ctx.offset + RECORD_COUNT_LENGTH < BUFFER_LENGTH

section Printer

variable {ctx : Context}

theorem Room.start : Room Context.start := ⟨inside_start, le_refl 0, by decide⟩

theorem Room.ok (h : Room ctx) : ctx.Ok := by
  have hroom := h.room
  exact ⟨h.inside, by omega⟩

theorem inside_append (h : Room ctx) {str : Bytes} (hend : ctx.offset + str.length ≤ BUFFER_LENGTH) : (ctx.append str).Inside :=
  inside_memcpy h.inside str h.nonneg (Int.natCast_nonneg _) hend

theorem Room.append (h : Room ctx) {str : Bytes} (hroom : hasRoom ctx str = true) : Room (ctx.append str) := by
  rw [hasRoom, Bool.and_eq_true, decide_eq_true_iff, decide_eq_true_iff] at hroom
  have hoffset : (ctx.append str).offset = ctx.offset + str.length := rfl
  refine ⟨inside_append h (by omega), ?_, ?_⟩
  · rw [hoffset]
    exact Int.add_nonneg h.nonneg (Int.natCast_nonneg _)
  · rw [hoffset]
    omega

theorem Room.print (h : Room ctx) (str : Bytes) : Room (print str ctx) := by
  rw [RecordPrinter.print]
  split
  next hroom => exact h.append hroom
  next => exact ⟨h.inside, h.nonneg, h.room⟩

/-- A loop keeps the room free if each round does. -/
theorem Room.foldl {α : Type} {f : Context → α → Context} (hf : ∀ ctx a, Room ctx → Room (f ctx a)) (l : List α)
    (h : Room ctx) : Room (l.foldl f ctx) := by
  induction l generalizing ctx with
  | nil => exact h
  | cons a l ih => exact ih (hf ctx a h)

theorem Room.printSeparator (h : Room ctx) (numCols : ℕ) : Room (printSeparator numCols ctx) := by
  have hcols : ∀ str, Room ((RecordPrinter.print str)^[numCols] ctx) := by
    intro str
    induction numCols with
    | zero => exact h
    | succ n ih =>
      rw [Function.iterate_succ_apply']
      exact ih.print str
  exact (hcols _).print _

theorem Room.printRecord (h : Room ctx) (recStr : List Bytes) : Room (printRecord recStr ctx) := by
  have hcols := Room.foldl (fun ctx col (h : Room ctx) => h.print (cell col)) recStr h
  rw [RecordPrinter.printRecord]
  split
  next hroom => exact hcols.append hroom
  next => exact hcols

theorem length_bytes (s : String) : (bytes s).length = s.length := by
  rw [bytes, List.length_map, String.length_toList]

/-- **The number of records** has the room that was kept free for it. -/
theorem ok_printRecordCount (h : Room ctx) {numRec : ℕ} (hnum : numRec < 10 ^ 14) : (printRecordCount numRec ctx).Ok := by
  have hdigits : (toText numRec).length ≤ 14 := by
    rw [toText_natCast, List.length_map]
    exact (Nat.length_toDigits_le_iff (by decide) (by decide)).mpr hnum
  have hellipsis : (if ctx.ellipsis then bytes "... ...\n" else []).length ≤ 8 := by
    split <;> decide
  have hroom := h.room
  have hlen : ((if ctx.ellipsis then bytes "... ...\n" else []) ++
      (bytes "Total record(s): " ++ toText numRec ++ bytes "\n")).length ≤ RECORD_COUNT_LENGTH := by
    have htotal : (bytes "Total record(s): ").length = 17 := by decide
    have hline : (bytes "\n").length = 1 := by decide
    rw [List.length_append, List.length_append, List.length_append, htotal, hline, RECORD_COUNT_LENGTH]
    omega
  refine ⟨inside_append h (by omega), ?_⟩
  change ctx.offset + _ + 1 ≤ BUFFER_LENGTH
  omega

theorem ok_text {text : Bytes} (h : text.length + 1 ≤ BUFFER_LENGTH) :
    Context.Ok { Context.start.memcpy Context.start.offset text text.length with offset := text.length } := by
  refine ⟨inside_memcpy inside_start text (le_refl 0) (Int.natCast_nonneg _) ?_, ?_⟩
  · have hzero : Context.start.offset = 0 := rfl
    omega
  · change (text.length : ℤ) + 1 ≤ BUFFER_LENGTH
    omega

theorem length_lines (lines : List String) :
    (lines.foldr (fun line text => line ++ "\n" ++ text) "").length = (lines.map fun line => line.length + 1).sum := by
  induction lines with
  | nil => rfl
  | cons line lines ih =>
    rw [List.foldr_cons, String.length_append, String.length_append, ih]
    rfl

theorem help_le : (bytes helpInfo).length + 1 ≤ BUFFER_LENGTH := by
  rw [length_bytes, helpInfo, length_lines]
  decide +kernel

/-- **Everything that is printed** is in the buffer. -/
theorem ok_print {out : Output} (h : out.Countable) : (out.print Context.start).Ok := by
  cases out with
  | nothing => exact Room.start.ok
  | help =>
    exact ok_text help_le
  | showTables tables =>
    have hhead := ((Room.start.printSeparator 1).printRecord [bytes "Tables"]).printSeparator 1
    exact ((hhead.foldl (fun ctx tab h => h.printRecord [bytes tab]) tables).printSeparator 1).ok
  | showIndex tab =>
    rw [Output.print]
    split
    · exact Room.start.ok
    · exact ((Room.foldl (fun ctx index h => h.printRecord _) tab.indexes (Room.start.printSeparator 3)).printSeparator 3).ok
  | descTable tab =>
    have hhead := ((Room.start.printSeparator 3).printRecord [bytes "Field", bytes "Type", bytes "Index"]).printSeparator 3
    exact ((Room.foldl (fun ctx col h => h.printRecord _) tab.cols hhead).printSeparator 3).ok
  | select captions rows complete =>
    have hhead := ((Room.start.printSeparator captions.length).printRecord (captions.map bytes)).printSeparator captions.length
    have hrows := hhead.foldl (fun ctx columns h => h.printRecord columns) rows
    rw [Output.print]
    split
    · exact ok_printRecordCount (hrows.printSeparator _) h
    · exact hrows.ok

end Printer

/-- **The response** is in the buffer exactly if the text of an error is short enough. -/
theorem response_inside_iff (o : Outcome) (hcount : o.output.Countable) : (clientHandler o).Ok ↔ o.Short := by
  have hok := ok_print hcount
  cases o with
  | done out => exact iff_of_true hok trivial
  | abort out =>
    have htext := inside_memcpy hok.inside (bytes "abort\n") (le_refl 0) (show (0 : ℤ) ≤ 6 by decide) (by decide)
    have hsent : (6 : ℤ) + 1 ≤ BUFFER_LENGTH := by decide
    exact iff_of_true ⟨inside_memcpy htext _ (by decide) Int.one_nonneg (by decide), hsent⟩ trivial
  | rmdbError out e => exact ok_answer_iff hok.inside _ _
  | exception out what =>
    refine (ok_answer_iff hok.inside _ _).trans ?_
    rw [clamp_nonneg_iff]
    exact and_iff_left (clamp_le _)
  | unknown out =>
    have hlen : (0 : ℤ) ≤ (bytes "Error: unknown execution error").length ∧
        ((bytes "Error: unknown execution error").length : ℤ) ≤ BUFFER_LENGTH - 2 := by decide
    exact iff_of_true ((ok_answer_iff hok.inside _ _).mpr hlen) trivial
  | parseError intOutOfRange =>
    refine iff_of_true ((ok_answer_iff hok.inside _ _).mpr ⟨(clamp_nonneg_iff _).mpr ?_, clamp_le _⟩) trivial
    cases intOutOfRange <;> decide

/-- A query with one record. -/
theorem response_inside_iff_select : (clientHandler (.done (.select ["a"] [[bytes "1"]] true))).Ok :=
  (response_inside_iff (.done (.select ["a"] [[bytes "1"]] true)) (by decide +kernel : 1 < 10 ^ 14)).mpr trivial

/-- The request `DROP TABLE name;`. -/
def dropRequest (name : String) : Bytes := bytes "DROP TABLE " ++ bytes name ++ bytes ";"

/-- A name of so many letters. -/
def nameOf (n : ℕ) : String := String.ofList (List.replicate n 'a')

theorem bytes_nameOf (n : ℕ) : bytes (nameOf n) = List.replicate n 97 := by
  rw [bytes, nameOf, String.toList_ofList, List.map_replicate]
  rfl

theorem isScanned_nameOf (n : ℕ) : Fs.IsScanned (nameOf (n + 1)) := by
  have hletter : Lib.Pattern.Matches Parser.alpha [97] := .one rfl
  have hrest : ∀ n, Lib.Pattern.Matches (.star (.alt (Parser.chr '_') (.alt Parser.alpha Parser.digit))) (List.replicate n 97) := by
    intro n
    induction n with
    | zero => exact .starNil
    | succ n ih => exact .starCons (.altRight (.altLeft hletter)) ih
  refine ⟨List.replicate (n + 1) 97, .seq hletter (hrest n), ?_⟩
  rw [nameOf, Parser.string, List.map_replicate]
  rfl

theorem length_dropRequest (n : ℕ) : (dropRequest (nameOf n)).length = n + 12 := by
  have hdrop : (bytes "DROP TABLE ").length = 11 := by decide
  have hend : (bytes ";").length = 1 := by decide
  rw [dropRequest, bytes_nameOf, List.length_append, List.length_append, List.length_replicate, hdrop, hend]
  omega

theorem length_tableNotFound (n : ℕ) : (RMDBError.tableNotFound (bytes (nameOf n))).msg.length = n + 24 := by
  have herror : (bytes "Error: ").length = 7 := by decide
  have htable : (bytes "Table not found: ").length = 17 := by decide
  rw [RMDBError.msg, RMDBError.text, bytes_nameOf, List.length_append, List.length_append, List.length_replicate, herror,
    htable]
  omega

theorem dropTable_empty (os : ℕ → Fs.Os × Fs.Os) (osClose osDestroy : Fs.Os) (name : String) :
    Fs.dropTable os osClose osDestroy name Fs.emptySm = .error (.tableNotFound name) Fs.emptySm := rfl

/-- The name of a table that is not there is almost as long as the request, and the text of the error is longer. -/
theorem not_response_inside : ∃ name, Fs.IsScanned name ∧ (dropRequest name).length ≤ BUFFER_LENGTH - 1 ∧
    (∀ os osClose osDestroy, Fs.dropTable os osClose osDestroy name Fs.emptySm = .error (.tableNotFound name) Fs.emptySm) ∧
    ¬ (clientHandler (.rmdbError .nothing (.tableNotFound (bytes name)))).Ok := by
  refine ⟨nameOf (8169 + 1), isScanned_nameOf _, ?_, fun os osClose osDestroy => dropTable_empty os osClose osDestroy _, ?_⟩
  · rw [length_dropRequest]
    decide
  · intro h
    have hlen := ((ok_answer_iff Room.start.inside _ _).mp h).2
    rw [RMDBError.getMsgLen, length_tableNotFound] at hlen
    exact absurd hlen (by decide)

end Rmdb.Server
