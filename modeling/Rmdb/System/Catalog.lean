import Rmdb.Common.Defs
import Rmdb.Lib.TextStream
import Rmdb.Lib.OrderedMap
import Mathlib.Data.String.Basic

/-!
# The catalog on disk

`ColMeta`, `IndexMeta`, `TabMeta` and `DbMeta` with all their fields, and the text that
`flush_meta` writes and `open_db` reads. A vector is written with its length before it, an
index with the number of its columns in a field of its own. The tables are a map keyed by
name; the text holds their names only inside the tables.
-/

namespace Rmdb

/-- The number of a `ColType`, as `static_cast<int>` gives it. -/
def ColType.code : ColType → ℤ
  | .int => 0
  | .float => 1
  | .string => 2
  | .bigint => 3
  | .datetime => 4

/-- The `ColType` of a number, if it has one. -/
def ColType.ofCode (n : ℤ) : Option ColType :=
  if n = 0 then some .int
  else if n = 1 then some .float
  else if n = 2 then some .string
  else if n = 3 then some .bigint
  else if n = 4 then some .datetime
  else none

@[simp] theorem ColType.ofCode_code (type : ColType) : ColType.ofCode type.code = some type := by
  cases type <;> rfl

namespace Catalog

open Lib

/-- `ColMeta`. -/
structure ColMeta where
  /-- `tab_name`. -/
  tabName : String
  /-- `name`. -/
  name : String
  /-- `type`. -/
  type : ColType
  /-- `len`. -/
  len : Int32
  /-- `offset`. -/
  offset : Int32
  /-- `index`. -/
  index : Bool
deriving DecidableEq

/-- `IndexMeta`. -/
structure IndexMeta where
  /-- `tab_name`. -/
  tabName : String
  /-- `col_tot_len`. -/
  colTotLen : Int32
  /-- `col_num`. -/
  colNum : Int32
  /-- `cols`. -/
  cols : List ColMeta
deriving DecidableEq

/-- `TabMeta`. -/
structure TabMeta where
  /-- `name`. -/
  name : String
  /-- `cols`. -/
  cols : List ColMeta
  /-- `indexes`. -/
  indexes : List IndexMeta
deriving DecidableEq

/-- `DbMeta`. -/
structure DbMeta where
  /-- `name_`. -/
  name : String
  /-- `tabs_`. -/
  tabs : OrderedMap String TabMeta

/-! ### Writing -/

/-- `operator<<` of `ColMeta`. -/
def ColMeta.write (col : ColMeta) : List Char :=
  col.tabName.toList ++ ' ' :: (col.name.toList ++ ' ' :: (showNumber col.type.code ++ ' ' ::
    (showNumber col.len.toInt ++ ' ' :: (showNumber col.offset.toInt ++ ' ' :: showBool col.index))))

/-- `operator<<` of `IndexMeta`. -/
def IndexMeta.write (index : IndexMeta) : List Char :=
  index.tabName.toList ++ ' ' :: (showNumber index.colTotLen.toInt ++ ' ' :: (showNumber index.colNum.toInt ++
    index.cols.flatMap fun col => '\n' :: col.write))

/-- `operator<<` of `TabMeta`. -/
def TabMeta.write (tab : TabMeta) : List Char :=
  tab.name.toList ++ '\n' :: (showNumber tab.cols.length ++ '\n' :: (tab.cols.flatMap (fun col => col.write ++ ['\n']) ++
    (showNumber tab.indexes.length ++ '\n' :: tab.indexes.flatMap fun index => index.write ++ ['\n'])))

/-- `operator<<` of `DbMeta`: what `flush_meta` writes. -/
def DbMeta.write (db : DbMeta) : List Char :=
  db.name.toList ++ '\n' :: (showNumber db.tabs.pairs.length ++ '\n' ::
    db.tabs.pairs.flatMap fun entry => entry.2.write ++ ['\n'])

/-! ### Reading -/

/-- `operator>>` of an enumeration. -/
def readColType : Reader ColType := do
  let n ← readInt
  match ColType.ofCode n.toInt with
  | some type => pure type
  | none => failure

/-- `operator>>` of `ColMeta`. -/
def ColMeta.read : Reader ColMeta := do
  let tabName ← readString
  let name ← readString
  let type ← readColType
  let len ← readInt
  let offset ← readInt
  let index ← readBool
  pure ⟨tabName, name, type, len, offset, index⟩

/-- `operator>>` of `IndexMeta`. -/
def IndexMeta.read : Reader IndexMeta := do
  let tabName ← readString
  let colTotLen ← readInt
  let colNum ← readInt
  let cols ← readMany ColMeta.read colNum.toInt.toNat
  pure ⟨tabName, colTotLen, colNum, cols⟩

/-- `operator>>` of `TabMeta`. -/
def TabMeta.read : Reader TabMeta := do
  let name ← readString
  let n ← readSize
  let cols ← readMany ColMeta.read n
  let m ← readSize
  let indexes ← readMany IndexMeta.read m
  pure ⟨name, cols, indexes⟩

/-- `operator>>` of `DbMeta`: what `open_db` reads into an empty catalog. -/
def DbMeta.read : Reader DbMeta := do
  let name ← readString
  let n ← readSize
  let tabs ← readMany TabMeta.read n
  pure ⟨name, tabs.foldl (fun tabs tab => tabs.assign tab.name tab) .empty⟩

/-! ### The round trip -/

/-- A name that is read back: not empty, without white space. -/
def NameOk (name : String) : Prop := name ≠ "" ∧ ∀ c ∈ name.toList, isSpace c = false

instance (name : String) : Decidable (NameOk name) :=
  @instDecidableAnd _ _ inferInstance (List.decidableBAll _ name.toList)

/-- The names of a column. -/
def ColMeta.NamesOk (col : ColMeta) : Prop := NameOk col.tabName ∧ NameOk col.name

instance (col : ColMeta) : Decidable col.NamesOk := instDecidableAnd

/-- The names of an index; `col_num` is the number of its columns. -/
def IndexMeta.Ok (index : IndexMeta) : Prop :=
  NameOk index.tabName ∧ index.colNum.toInt = index.cols.length ∧ ∀ col ∈ index.cols, col.NamesOk

instance (index : IndexMeta) : Decidable index.Ok := instDecidableAnd

/-- The names of a table. -/
def TabMeta.NamesOk (tab : TabMeta) : Prop :=
  NameOk tab.name ∧ (∀ col ∈ tab.cols, col.NamesOk) ∧ ∀ index ∈ tab.indexes, index.Ok

instance (tab : TabMeta) : Decidable tab.NamesOk := instDecidableAnd

/-- The names of a database; its tables are keyed by their own names. -/
def DbMeta.NamesOk (db : DbMeta) : Prop :=
  NameOk db.name ∧ ∀ entry ∈ db.tabs.pairs, entry.2.name = entry.1 ∧ entry.2.NamesOk

instance (db : DbMeta) : Decidable db.NamesOk := instDecidableAnd

theorem NameOk.reads {name : String} (h : NameOk name) : Reads readString name.toList name := reads_string h.1 h.2

theorem reads_colType (type : ColType) : Reads readColType (showNumber type.code) type := by
  have hcode : (Int32.ofInt type.code).toInt = type.code := by cases type <;> rfl
  have h := reads_int (Int32.ofInt type.code)
  rw [hcode] at h
  refine h.last ?_
  rw [hcode, ColType.ofCode_code]

theorem ColMeta.NamesOk.reads {col : ColMeta} (h : col.NamesOk) : Reads ColMeta.read col.write col :=
  .sep rfl h.1.reads <| .sep rfl h.2.reads <| .sep rfl (reads_colType _) <| .sep rfl (reads_int _) <|
    .sep rfl (reads_int _) <| (reads_bool _).last rfl

theorem IndexMeta.Ok.reads {index : IndexMeta} (h : index.Ok) : Reads IndexMeta.read index.write index := by
  obtain ⟨hname, hnum, hcols⟩ := h
  have hmany := Reads.many (c := '\n') rfl fun col hcol => (hcols col hcol).reads
  have hlen : index.colNum.toInt.toNat = index.cols.length := by rw [hnum, Int.toNat_natCast]
  rw [← hlen] at hmany
  exact .sep rfl hname.reads <| .sep rfl (reads_int _) <| (reads_int _).bind (hmany.last rfl) fun _ => .flatMap rfl _ _

/-- The text of a table, with the line breaks before the lines. -/
theorem TabMeta.write_eq (tab : TabMeta) : tab.write =
    tab.name.toList ++ '\n' :: (showNumber tab.cols.length ++ (tab.cols.flatMap (fun col => '\n' :: col.write) ++
      '\n' :: (showNumber tab.indexes.length ++ (tab.indexes.flatMap (fun index => '\n' :: index.write) ++ ['\n'])))) := by
  have hindexes := cons_flatMap_snoc '\n' IndexMeta.write tab.indexes []
  rw [List.append_nil] at hindexes
  rw [TabMeta.write, hindexes, cons_flatMap_snoc]

theorem TabMeta.NamesOk.reads {tab : TabMeta} (h : tab.NamesOk) : Reads TabMeta.read tab.write tab := by
  obtain ⟨hname, hcols, hindexes⟩ := h
  have hcols' := Reads.many (c := '\n') rfl fun col hcol => (hcols col hcol).reads
  have hindexes' := Reads.many (c := '\n') rfl fun index hindex => (hindexes index hindex).reads
  rw [TabMeta.write_eq]
  refine .sep rfl hname.reads <| (reads_size _).bind (.sep rfl hcols' <| (reads_size _).bind ?_ ?_) ?_
  · exact Reads.after (hindexes'.last rfl) (isSpace_singleton rfl)
  · intro _ hrest
    rw [List.append_assoc]
    exact .flatMap rfl _ _ (.cons rfl _)
  · intro _ _
    rw [List.append_assoc]
    exact .flatMap rfl _ _ (.cons rfl _)

theorem DbMeta.write_eq (db : DbMeta) : db.write =
    db.name.toList ++ '\n' :: (showNumber db.tabs.pairs.length ++
      ((db.tabs.pairs.map (·.2)).flatMap (fun tab => '\n' :: tab.write) ++ ['\n'])) := by
  have htabs := cons_flatMap_snoc '\n' (fun entry : String × TabMeta => entry.2.write) db.tabs.pairs []
  rw [List.append_nil] at htabs
  rw [DbMeta.write, htabs, List.flatMap_map]

/-- **The catalog is read back** as it was written. -/
theorem DbMeta.read_write (db : DbMeta) (h : db.NamesOk) : (DbMeta.read db.write).map Prod.fst = some db := by
  obtain ⟨hname, htabs⟩ := h
  have hmany := Reads.many (c := '\n') (p := TabMeta.read) (f := TabMeta.write) (l := db.tabs.pairs.map (·.2)) rfl
    fun tab htab => by
      obtain ⟨entry, hentry, rfl⟩ := List.mem_map.mp htab
      exact (htabs entry hentry).2.reads
  have hfold : (db.tabs.pairs.map (·.2)).foldl (fun tabs tab => tabs.assign tab.name tab) .empty = db.tabs := by
    rw [List.foldl_map]
    refine (List.foldl_ext _ _ _ ?_).trans db.tabs.assignAll_pairs
    intro tabs entry hentry
    rw [(htabs entry hentry).1]
  rw [List.length_map] at hmany
  rw [DbMeta.write_eq]
  refine Reads.run (.sep rfl hname.reads <| (reads_size _).bind ?_ ?_)
  · refine Reads.after (hmany.last ?_) (isSpace_singleton rfl)
    rw [hfold]
  · intro _ _
    rw [List.append_assoc]
    exact .flatMap rfl _ _ (.cons rfl _)

/-- A database with two tables and an index on one of them. -/
def sampleDb : DbMeta where
  name := "shop"
  tabs :=
    let item : TabMeta := ⟨"item", [⟨"item", "id", .int, 4, 0, true⟩, ⟨"item", "label", .string, 16, 4, false⟩],
      [⟨"item", 4, 1, [⟨"item", "id", .int, 4, 0, false⟩]⟩]⟩
    let stock : TabMeta := ⟨"stock", [⟨"stock", "n", .bigint, 8, 0, false⟩], []⟩
    (OrderedMap.empty.assign stock.name stock).assign item.name item

theorem read_write_sampleDb : sampleDb.NamesOk ∧ (DbMeta.read sampleDb.write).map Prod.fst = some sampleDb :=
  ⟨by decide, sampleDb.read_write (by decide)⟩

end Catalog

end Rmdb
