import Rmdb.Common.Compare

/-!
# Record identifiers and catalog entries

The plain data every part of the system passes around: record identifiers, and
the catalog's description of columns, indexes and tables.
-/

namespace Rmdb

/-- `Rid`: where a record is. In an inner node of an index the page is a child and the slot is `-1`. -/
structure Rid where
  /-- `page_no`. -/
  pageNo : ℤ
  /-- `slot_no`. -/
  slotNo : ℤ
  deriving DecidableEq, Repr

/-- `txn_id_t`. -/
abbrev TxnId := ℕ

/-- `WriteRecord`: what a transaction has written, kept to roll it back. -/
inductive WriteRecord where
  /-- `INSERT_TUPLE`. -/
  | insert (tabName : String) (rid : Rid)
  /-- `DELETE_TUPLE`, with the record that was deleted. -/
  | delete (tabName : String) (rid : Rid) (record : Bytes)
  /-- `UPDATE_TUPLE`, with the record before the update. -/
  | update (tabName : String) (rid : Rid) (record : Bytes)
  deriving DecidableEq

namespace WriteRecord

/-- `GetTableName`. -/
def tabName : WriteRecord → String
  | insert t _ => t
  | delete t _ _ => t
  | update t _ _ => t

end WriteRecord

/-! ### The write set, table by table -/

/-- The writes to one table. -/
def writesTo (name : String) (ws : List WriteRecord) : List WriteRecord := ws.filter fun w => w.tabName = name

theorem writesTo_eq_nil {name : String} {ws : List WriteRecord} (h : ∀ w ∈ ws, w.tabName ≠ name) : writesTo name ws = [] :=
  List.filter_eq_nil_iff.mpr fun w hw => by simpa using h w hw

theorem writesTo_eq_self {name : String} {ws : List WriteRecord} (h : ∀ w ∈ ws, w.tabName = name) : writesTo name ws = ws :=
  List.filter_eq_self.mpr fun w hw => by simpa using h w hw

theorem writesTo_append (name : String) (ws ws' : List WriteRecord) :
    writesTo name (ws ++ ws') = writesTo name ws ++ writesTo name ws' := List.filter_append ..

end Rmdb
