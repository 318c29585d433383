import Rmdb.Record.File

/-!
# The catalog

What the catalog knows of a table: its columns, in the order of the record's bytes, and
its indexes. Columns of an index are copies of the table's columns, so that an index
knows the offsets its keys are read from.

`RMDBError` collects the exceptions that the layers above the record manager throw; an
exception of the record manager passes through them.
-/

namespace Rmdb

/-- The exceptions of the system above the record manager. -/
inductive RMDBError where
  /-- An exception of the record manager. -/
  | record (e : Record.RmError)
  /-- `TableNotFoundError(tab_name)`. -/
  | tableNotFound (tabName : String)
  /-- `ColumnNotFoundError(col_name)`. -/
  | columnNotFound (colName : String)
  /-- `AmbiguousColumnError(col_name)`. -/
  | ambiguousColumn (colName : String)
  /-- `IncompatibleTypeError(lhs, rhs)`. -/
  | incompatibleType (lhs rhs : ColType)
  /-- `IncompatibleTypeError("INT/FLOAT", "STRING")`. -/
  | sumType
  /-- `StringOverflowError()`. -/
  | stringOverflow
  /-- `ValueOutOfRangeError(type, value)`. -/
  | valueOutOfRange (type : ColType) (value : ℤ)
  /-- `InvalidDateTimeError(value)`. -/
  | invalidDateTime (value : Bytes)
  /-- `InvalidValueCountError()`. -/
  | invalidValueCount
  /-- `IndexNotFoundError(tab_name, col_names)`. -/
  | indexNotFound (tabName : String) (colNames : List String)
  /-- `IndexExistsError(tab_name, col_names)`. -/
  | indexExists (tabName : String) (colNames : List String)
  /-- `IndexEntryNotFoundError()`. -/
  | indexEntryNotFound
  /-- A failed assertion. -/
  | assertion
deriving DecidableEq

/-- `ColMeta`. -/
structure ColMeta where
  /-- `tab_name`. -/
  tabName : String
  /-- `name`. -/
  name : String
  /-- `type`. -/
  type : ColType
  /-- `len`. -/
  len : ℕ
  /-- `offset`: where the column's bytes start in a record. -/
  offset : ℕ
deriving DecidableEq

/-- `IndexMeta`. -/
structure IndexMeta where
  /-- `tab_name`. -/
  tabName : String
  /-- `cols`; `col_num` is their number and `col_tot_len` their total length. -/
  cols : List ColMeta
deriving DecidableEq

/-- `TabMeta`. -/
structure TabMeta where
  /-- `name`. -/
  name : String
  /-- `cols`. -/
  cols : List ColMeta
  /-- `indexes`. -/
  indexes : List IndexMeta
deriving DecidableEq

/-- `DbMeta`. -/
structure DbMeta where
  /-- `tabs_`. -/
  tabs : String → Option TabMeta

namespace ColMeta

/-- The bytes of a column in a record: what `memcpy(.., rec.data + col.offset, col.len)` copies. -/
def read (c : ColMeta) (rec : Bytes) : Bytes := (rec.drop c.offset).take c.len

/-- The type and the length, which is all a comparison looks at. -/
def shape (c : ColMeta) : ColType × ℕ := (c.type, c.len)

/-- `INT` and `FLOAT` have 4 bytes, `BIGINT` and `DATETIME` 8, `CHAR` any number. -/
def LenOk (c : ColMeta) : Prop :=
  match c.type with
  | .int | .float => c.len = 4
  | .bigint | .datetime => c.len = 8
  | .string => True

instance (c : ColMeta) : Decidable c.LenOk := by
  unfold LenOk
  cases c.type <;> infer_instance

end ColMeta

namespace IndexMeta

/-- `make_index_key`, and the same loop wherever a key is built from a record. -/
def makeIndexKey (index : IndexMeta) (rec : Bytes) : Bytes := index.cols.flatMap (·.read rec)

/-- The names of the columns. -/
def colNames (index : IndexMeta) : List String := index.cols.map (·.name)

/-- The types and lengths that `ix_compare` runs over. -/
def shape (index : IndexMeta) : List (ColType × ℕ) := index.cols.map (·.shape)

end IndexMeta

namespace TabMeta

/-- `get_col`: the first column of that name. -/
def getCol (tab : TabMeta) (colName : String) : Except RMDBError ColMeta :=
  match tab.cols.find? (·.name = colName) with
  | some col => .ok col
  | none => .error (.columnNotFound colName)

/-- `is_index`. -/
def isIndex (tab : TabMeta) (colNames : List String) : Bool := tab.indexes.any fun index => index.colNames = colNames

/-- `get_index_meta`. -/
def getIndexMeta (tab : TabMeta) (colNames : List String) : Except RMDBError IndexMeta :=
  match tab.indexes.find? (·.colNames = colNames) with
  | some index => .ok index
  | none => .error (.indexNotFound tab.name colNames)

/-- A table as `create_table` and `create_index` leave it: the columns carry the table's name and have the
length of their type, and an index column is the table's column of that name. -/
structure Ok (tab : TabMeta) : Prop where
  named : tab.name ≠ ""
  cols : ∀ c ∈ tab.cols, c.tabName = tab.name ∧ c.LenOk
  indexes : ∀ index ∈ tab.indexes, ∀ c ∈ index.cols, tab.cols.find? (·.name = c.name) = some c

/-- The length of a record: `cols.back().offset + cols.back().len`. -/
def recordSize (tab : TabMeta) : ℕ := (tab.cols.getLast?.map fun c => c.offset + c.len).getD 0

/-- A record of the table: every column lies inside it, and a `FLOAT` is not a NaN, which no literal is. -/
def RecordOk (tab : TabMeta) (rec : Bytes) : Prop :=
  ∀ c ∈ tab.cols, c.offset + c.len ≤ rec.length ∧ (c.type = .float → isNaN32 (leNat 4 (c.read rec)) = false)

end TabMeta

namespace DbMeta

/-- `get_table`. -/
def getTable (db : DbMeta) (tabName : String) : Except RMDBError TabMeta :=
  match db.tabs tabName with
  | some tab => .ok tab
  | none => .error (.tableNotFound tabName)

/-- Tables are kept under their own names. -/
structure Ok (db : DbMeta) : Prop where
  tabs : ∀ {t tab}, db.tabs t = some tab → tab.name = t ∧ tab.Ok

end DbMeta

theorem ColMeta.length_read {c : ColMeta} {rec : Bytes} (h : c.offset + c.len ≤ rec.length) :
    (c.read rec).length = c.len := by
  rw [read, List.length_take, List.length_drop]
  omega

theorem TabMeta.getIndexMeta_mem {tab : TabMeta} {colNames : List String} {index : IndexMeta}
    (h : tab.getIndexMeta colNames = .ok index) : index ∈ tab.indexes := by
  unfold getIndexMeta at h
  split at h
  · cases h
    exact List.mem_of_find?_eq_some (by assumption)
  · cases h

end Rmdb
