import Rmdb.Parser.Lex
import Rmdb.System.Ddl

/-!
# The names of index files

`get_index_name` joins the names of a table and of the columns of an index with underscores,
which are letters of identifiers too. The file names of two indexes are therefore the same
exactly if the names, taken apart at every underscore, give the same words
(`getIndexName_ne_iff`). `exists` and `ihs_` know an index by its file name, and
`create_index` of the second of two such indexes fails (`createIndex_fileExists`).

Every column adds to the name, and the operating system has no file with a name of more than 255
bytes. So an index that is created has so few columns that its header fits into a page, and it
opens as it was closed (`opens_as_closed`).
-/

namespace Rmdb.Fs

open Lib Index
open Rmdb.Parser (identifierPattern string bytes)

/-! ### Words -/

/-- The words of a list of names: the names are taken apart at their underscores. -/
def nameWords (names : List String) : List (List Char) := names.flatMap fun name => name.toList.splitOn '_'

/-- An identifier of the scanner. -/
def IsScanned (name : String) : Prop := ∃ text, Pattern.Matches identifierPattern text ∧ name = string text

/-- What the loop of `get_index_name` makes of a name to begin with. -/
def joinNames (filename : String) (indexCols : List String) : String :=
  indexCols.foldl (fun indexName col => indexName ++ "_" ++ col) filename

theorem splitOn_joinNames (indexCols : List String) : ∀ filename : String,
    (joinNames filename indexCols).toList.splitOn '_' = nameWords (filename :: indexCols) := by
  induction indexCols with
  | nil =>
    intro filename
    rw [joinNames, nameWords, List.foldl_nil, List.flatMap_singleton]
  | cons col cols ih =>
    intro filename
    have hjoin : joinNames filename (col :: cols) = joinNames (filename ++ "_" ++ col) cols := rfl
    have hunderscore : "_".toList = ['_'] := rfl
    rw [hjoin, ih, nameWords, nameWords, List.flatMap_cons, List.flatMap_cons, List.flatMap_cons, String.toList_append,
      String.toList_append, hunderscore, List.append_assoc, List.singleton_append, List.splitOn_append_cons_self,
      List.append_assoc]

theorem joinNames_inj {tab tab' : String} {cols cols' : List String} :
    joinNames tab cols = joinNames tab' cols' ↔ nameWords (tab :: cols) = nameWords (tab' :: cols') := by
  rw [← splitOn_joinNames, ← splitOn_joinNames]
  constructor
  · intro h
    rw [h]
  · intro h
    have hlist := congrArg (List.intercalate ['_']) h
    rw [List.intercalate_splitOn, List.intercalate_splitOn] at hlist
    exact String.toList_injective hlist

/-- **The file names of two indexes** differ exactly if the words of their names do. -/
theorem getIndexName_ne_iff (tab tab' : String) (cols cols' : List String) :
    IxManager.getIndexName tab cols ≠ IxManager.getIndexName tab' cols' ↔
      nameWords (tab :: cols) ≠ nameWords (tab' :: cols') := by
  refine not_congr (Iff.trans ?_ joinNames_inj)
  have hname : ∀ tab cols, (IxManager.getIndexName tab cols).toList = (joinNames tab cols).toList ++ ".idx".toList :=
    fun tab cols => String.toList_append
  constructor
  · intro h
    have hlist := congrArg String.toList h
    rw [hname, hname] at hlist
    exact String.toList_injective (List.append_cancel_right hlist)
  · intro h
    refine String.toList_injective ?_
    rw [hname, hname, h]

/-- Names without underscores are the words themselves. -/
theorem nameWords_of_plain {names : List String} (h : ∀ name ∈ names, '_' ∉ name.toList) :
    nameWords names = names.map String.toList := by
  induction names with
  | nil => rfl
  | cons name names ih =>
    have hname : nameWords (name :: names) = name.toList.splitOn '_' ++ nameWords names := rfl
    rw [hname, ih fun n hn => h n (List.mem_cons_of_mem _ hn), List.splitOn_eq_singleton (h name List.mem_cons_self),
      List.singleton_append, List.map_cons]

/-- Two indexes whose names have no underscores have different files. -/
theorem getIndexName_ne_of_plain {tab tab' : String} {cols cols' : List String}
    (h : ∀ name ∈ tab :: cols, '_' ∉ name.toList) (h' : ∀ name ∈ tab' :: cols', '_' ∉ name.toList)
    (hne : (tab, cols) ≠ (tab', cols')) : nameWords (tab :: cols) ≠ nameWords (tab' :: cols') := by
  rw [nameWords_of_plain h, nameWords_of_plain h']
  intro hwords
  obtain ⟨rfl, rfl⟩ := List.cons.inj (List.map_injective_iff.mpr (fun _ _ h => String.toList_injective h) hwords)
  exact hne rfl

/-! ### A legal index that cannot be created -/

/-- `create_index` fails where the file of the index is there, whichever index it belongs to. -/
theorem createIndex_fileExists {os : IndexOs} {acc : Access} {s : Sm} {tabName : String} {colNames : List String}
    {tab : Catalog.TabMeta} {cols : List Catalog.ColMeta} (htab : s.db.tabs.find tabName = some tab)
    (hidx : tab.indexes.any (hasCols colNames) = false) (hcols : getCols tab colNames = .ok cols)
    (hfile : s.files.dir (IxManager.getIndexName tabName (cols.map (·.name))) ≠ none) :
    createIndex os acc tabName colNames s =
      .error (.fileExists (IxManager.getIndexName tabName (cols.map (·.name)))) s := by
  obtain ⟨file, hfile⟩ := Option.ne_none_iff_exists'.mp hfile
  have hcreate : IxManager.createIndex os.create (IxManager.getIndexName tabName (cols.map (·.name))) cols s.files =
      .error (.fileExists (IxManager.getIndexName tabName (cols.map (·.name)))) s.files := by
    rw [IxManager.createIndex]
    refine bind_of_error ?_
    simp only [DiskManager.createFile, hfile]
  rw [createIndex, bind_of_ok (getTable_of_find htab), hidx, if_neg Bool.false_ne_true, hcols,
    bind_of_ok (show ofExcept (Except.ok cols) s = .ok cols s from rfl)]
  exact bind_of_error (call_of_error hcreate)

/-- After `CREATE TABLE t (a INT, b INT, a_b INT)` and `CREATE INDEX t (a, b)`. -/
def pairTable : Sm :=
  endState (createIndex plainIndexOs noRecord "t" ["a", "b"]
    (endState (createTable (.plain (some (3, 0)) []) (.plain (some (3, 20)) []) "t"
      ([⟨"a", .int⟩, ⟨"b", .int⟩, ⟨"a_b", .int⟩].map Catalog.Field.colDef) emptySm)))

/-- Its table. -/
def pairTab : Catalog.TabMeta := ((pairTable.db.tabs.find "t").getD ⟨"t", [], []⟩)

theorem isScanned_of_longest {name : String} (hbytes : string (bytes name) = name)
    (h : identifierPattern.longest (bytes name) = some (bytes name).length) : IsScanned name := by
  have hlongest := Pattern.isLongest_longest identifierPattern (bytes name)
  rw [h] at hlongest
  refine ⟨bytes name, ?_, hbytes.symm⟩
  have hmatch := hlongest.2.1
  rwa [List.take_length] at hmatch

/-- `CREATE INDEX t (a_b)` throws where there is an index on `a` and `b`. -/
theorem getIndexName_collides : IsScanned "t" ∧ IsScanned "a" ∧ IsScanned "b" ∧ IsScanned "a_b" ∧
    ("t", ["a", "b"]) ≠ ("t", ["a_b"]) ∧ IxManager.getIndexName "t" ["a", "b"] = IxManager.getIndexName "t" ["a_b"] ∧
    (∃ s, createIndex plainIndexOs noRecord "t" ["a_b"] pairTable = .error (.fileExists "t_a_b.idx") s) := by
  refine ⟨isScanned_of_longest (by decide +kernel) (by decide +kernel),
    isScanned_of_longest (by decide +kernel) (by decide +kernel),
    isScanned_of_longest (by decide +kernel) (by decide +kernel),
    isScanned_of_longest (by decide +kernel) (by decide +kernel), by decide, by decide +kernel, pairTable, ?_⟩
  have htab : pairTable.db.tabs.find "t" = some pairTab := by decide +kernel
  have hcols : getCols pairTab ["a_b"] = .ok [⟨"t", "a_b", .int, 4, 8, false⟩] := by decide +kernel
  exact createIndex_fileExists htab (by decide +kernel) hcols (by decide +kernel)

/-! ### The number of columns -/

/-- `NAME_MAX`: the most bytes that the name of a file has. -/
def NAME_MAX : ℕ := 255

theorem utf8ByteSize_joinNames (indexCols : List String) : ∀ filename : String,
    filename.utf8ByteSize + indexCols.length ≤ (joinNames filename indexCols).utf8ByteSize := by
  induction indexCols with
  | nil => exact fun filename => le_refl _
  | cons col cols ih =>
    intro filename
    have hcol := ih (filename ++ "_" ++ col)
    have hone : "_".utf8ByteSize = 1 := rfl
    rw [String.utf8ByteSize_append, String.utf8ByteSize_append, hone] at hcol
    rw [List.length_cons, show joinNames filename (col :: cols) = joinNames (filename ++ "_" ++ col) cols from rfl]
    omega

/-- **An index has few columns**: its file name has a byte and more for each of them. -/
theorem length_le_of_indexName {filename : String} {indexCols : List String}
    (h : (IxManager.getIndexName filename indexCols).utf8ByteSize ≤ NAME_MAX) : indexCols.length ≤ 251 := by
  have hjoin := utf8ByteSize_joinNames indexCols filename
  have hsuffix : ".idx".utf8ByteSize = 4 := rfl
  have hname : IxManager.getIndexName filename indexCols = joinNames filename indexCols ++ ".idx" := rfl
  rw [hname, String.utf8ByteSize_append, hsuffix] at h
  unfold NAME_MAX at h
  omega

/-- **An index opens as it was closed.** What `create_index` accepts has a name that a file can have, and a key of at most
`IX_MAX_COL_LEN` bytes. Whatever is inserted and deleted, the header that is read after `close_index` is the one in memory, as long
as the number of pages is an `int`; and no header write leaves its page, and the nodes fit into theirs. -/
theorem opens_as_closed {K : Type} [LinearOrder K] [Inhabited K] (filename : String) (indexCols : List ColMeta)
    (hname : (IxManager.getIndexName filename (indexCols.map (·.name))).utf8ByteSize ≤ NAME_MAX)
    (htot : colTotLen (indexCols.map (·.shape)) ≤ IX_MAX_COL_LEN) (ops : List (Op K)) :
    ∃ ih, runOps (IxIndexHandle.createIndex (btreeOrderOf (colTotLen (indexCols.map (·.shape))))) ops = some ih ∧
      (ih.numPages < 2 ^ 31 → ReopensSame (indexCols.map (·.shape)) ih) := by
  obtain ⟨ih, hrun, horder, hcount, hlinks⟩ := run_header (btreeOrderOf_fits htot).1 ops
  refine ⟨ih, hrun, ?_⟩
  intro hpages
  have hfew := length_le_of_indexName hname
  have hroot := hlinks ih.rootPage List.mem_cons_self
  rw [List.length_map] at hfew
  refine reopensSame ?_ htot horder hcount ⟨?_, hpages⟩ hlinks
  · rw [List.length_map]
    omega
  · omega

/-- An index on one `INT` column, with one entry. -/
theorem opens_as_closed_one_column : ∃ ih, runOps (IxIndexHandle.createIndex (btreeOrderOf 4)) [Op.insert (7 : ℤ) ⟨1, 0⟩] = some ih ∧
    ReopensSame [(.int, 4)] ih := by
  obtain ⟨ih, hrun, h⟩ := opens_as_closed "t" [⟨"t", "a", .int, 4, 0⟩] (by decide) (by decide) [Op.insert (7 : ℤ) ⟨1, 0⟩]
  refine ⟨ih, hrun, h ?_⟩
  have hthree : (runOps (IxIndexHandle.createIndex (btreeOrderOf 4)) [Op.insert (7 : ℤ) ⟨1, 0⟩]).map (·.numPages) = some 3 := rfl
  rw [show runOps (IxIndexHandle.createIndex (btreeOrderOf 4)) [Op.insert (7 : ℤ) ⟨1, 0⟩] = some ih from hrun] at hthree
  have hnum : ih.numPages = 3 := Option.some.inj hthree
  rw [hnum]
  decide

end Rmdb.Fs
