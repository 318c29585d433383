import Rmdb.Common.Datetime
import Rmdb.Execution.Exact
import Rmdb.Parser.Literals
import Rmdb.Record.Layout

/-!
# What is inserted is what is read

`do_analyze` turns the literals of an `INSERT` into values of the column types with their
bytes, and `InsertExecutor` copies these into a record. `select_from` makes a text of each
column of a record. In a table of `INT`, `BIGINT`, `DATETIME` and `CHAR` columns laid out one
behind the other, the texts are those of the literals, and a statement with a literal that
does not fit its column is refused before anything is changed (`insert_exact`).
-/

namespace Rmdb.Execution

open Lib Analyze
open Rmdb.Parser (LiteralOk bytes)
open Record (InInt length_intBytes)

/-! ### The statement -/

/-- The loop of `do_analyze` over the literals of an `INSERT`. -/
def analyzeValues : List (ColMeta × SvValue) → Except RMDBError (List Value)
  | [] => .ok []
  | (col, val) :: rest => do
    let value ← setValue col val
    let values ← analyzeValues rest
    .ok (value :: values)

/-- `do_analyze` of an `INSERT`. -/
def analyzeInsert (db : DbMeta) (tabName : String) (vals : List SvValue) : Except RMDBError (List Value) := do
  let tab ← db.getTable tabName
  if vals.length ≠ tab.cols.length then .error .invalidValueCount else analyzeValues (tab.cols.zip vals)

/-- The whole statement. -/
def execInsert (tabName : String) (vals : List SvValue) (d : Database) : Database × Option RMDBError :=
  match analyzeInsert d.meta tabName vals with
  | .error e => (d, some e)
  | .ok values =>
    match d.getTable tabName with
    | .error e => (d, some e)
    | .ok t =>
      let (s, e) := (Stmt.insert values).exec ⟨t, d.writes⟩
      (⟨Function.update d.tables tabName (some s.table), s.writes⟩, e)

/-- The text of a column in `select_from`. How a `float` is written is a parameter. -/
def columnText (floatText : ℕ → Bytes) (col : ColMeta) (rec : Bytes) : Bytes :=
  let recBuf := rec.drop col.offset
  match col.type with
  | .int => toText (leInt 4 recBuf)
  | .float => floatText (leNat 4 recBuf)
  | .bigint => toText (leInt 8 recBuf)
  | .datetime => formatDatetimeValue (leInt 8 recBuf)
  | .string => (recBuf.take col.len).takeWhile (· ≠ 0)

/-! ### Literals and columns -/

/-- The text of a literal: an integer in decimal, or the text itself. -/
def literalText (floatText : ℕ → Bytes) : SvValue → Bytes
  | .intLit v => toText v
  | .floatLit bits => floatText bits
  | .stringLit s => s

/-- The literal fits the column. -/
def LiteralFits (col : ColMeta) (val : SvValue) : Prop :=
  match col.type, val with
  | .int, .intLit v => InInt v
  | .bigint, .intLit _ => True
  | .datetime, .stringLit s => ∃ t : Instant, s = t.text
  | .string, .stringLit s => s.length ≤ col.len
  | _, _ => False

/-- The columns lie one behind the other. -/
def Placed : ℕ → List ColMeta → Prop
  | _, [] => True
  | offset, col :: cols => col.offset = offset ∧ Placed (offset + col.len) cols

/-- A table without `FLOAT` columns, as `create_table` lays it out. -/
structure SchemaOk (tab : TabMeta) : Prop where
  placed : Placed 0 tab.cols
  cols : ∀ col ∈ tab.cols, col.LenOk ∧ col.type ≠ .float

section Literals

variable {col : ColMeta} {val : SvValue} (floatText : ℕ → Bytes)

theorem leInt_intBytes_append {w : ℕ} (hw : 0 < w) {x : ℤ} (h : -2 ^ (8 * w - 1) ≤ x ∧ x < 2 ^ (8 * w - 1)) (rest : Bytes) :
    leInt w (intBytes w x ++ rest) = x := by
  have hdouble : (2 : ℕ) ^ (8 * w) = 2 * 2 ^ (8 * w - 1) := by
    rw [← Nat.pow_succ']
    congr 1
    omega
  have hcast : ((2 ^ (8 * w) : ℕ) : ℤ) = 2 ^ (8 * w) := by push_cast; rfl
  have hcast' : ((2 ^ (8 * w - 1) : ℕ) : ℤ) = 2 ^ (8 * w - 1) := by push_cast; rfl
  have hnat : ((leNat w (intBytes w x ++ rest) : ℕ) : ℤ) = x % 2 ^ (8 * w) := by
    have hpos : (0 : ℤ) < 2 ^ (8 * w) := by
      rw [← hcast]
      exact Int.natCast_pos.mpr (Nat.two_pow_pos _)
    have hlt := Int.emod_lt_of_pos x hpos
    have hnonneg := Int.emod_nonneg x (ne_of_gt hpos)
    rw [intBytes, leNat_leBytes, Nat.mod_eq_of_lt (by omega)]
    exact Int.toNat_of_nonneg hnonneg
  rw [leInt]
  rcases lt_or_ge x 0 with hneg | hnonneg
  · have hmod : x % 2 ^ (8 * w) = x + 2 ^ (8 * w) := by
      rw [← Int.add_emod_right, Int.emod_eq_of_lt (by omega) (by omega)]
    rw [if_neg (by omega)]
    omega
  · have hmod : x % 2 ^ (8 * w) = x := Int.emod_eq_of_lt hnonneg (by omega)
    rw [if_pos (by omega)]
    omega

/-- A literal has become a value of the column's type, whose bytes stand for its text. -/
def SetTo (col : ColMeta) (val : SvValue) (value : Value) (raw : Bytes) : Prop :=
  setValue col val = .ok value ∧ value.type = col.type ∧ value.raw = some raw ∧ raw.length = col.len ∧
    ∀ rec rest, rec.drop col.offset = raw ++ rest → columnText floatText col rec = literalText floatText val

variable {tabName name : String} {offset : ℕ}

theorem setValue_int (v : ℤ) :
    (InInt v → ∃ value raw, SetTo floatText ⟨tabName, name, .int, 4, offset⟩ (.intLit v) value raw) ∧
    (¬ InInt v → ∃ e, setValue ⟨tabName, name, .int, 4, offset⟩ (.intLit v) = .error e) := by
  have hrange : InInt v ↔ ¬ (v < -2147483648 ∨ 2147483647 < v) := by
    rw [InInt]
    omega
  rw [hrange, not_not]
  constructor
  · intro hin
    refine ⟨⟨.int v, some (intBytes 4 v)⟩, intBytes 4 v, ?_, rfl, rfl, length_intBytes 4 v, ?_⟩
    · simp only [setValue, convertSvValue, Value.coerceValueType, if_neg hin]
      rfl
    · intro rec rest hrec
      change toText (leInt 4 (rec.drop offset)) = toText v
      rw [hrec, leInt_intBytes_append (by decide) (by omega)]
  · intro hout
    refine ⟨.valueOutOfRange .int v, ?_⟩
    simp only [setValue, convertSvValue, Value.coerceValueType, if_pos hout]
    rfl

theorem setValue_bigint {v : ℤ} (h : -2 ^ 63 ≤ v ∧ v < 2 ^ 63) :
    ∃ value raw, SetTo floatText ⟨tabName, name, .bigint, 8, offset⟩ (.intLit v) value raw := by
  refine ⟨⟨.bigint v, some (intBytes 8 v)⟩, intBytes 8 v, rfl, rfl, rfl, length_intBytes 8 v, ?_⟩
  intro rec rest hrec
  change toText (leInt 8 (rec.drop offset)) = toText v
  rw [hrec, leInt_intBytes_append (by decide) h]

theorem setValue_datetime (s : Bytes) :
    ((∃ t : Instant, s = t.text) →
      ∃ value raw, SetTo floatText ⟨tabName, name, .datetime, 8, offset⟩ (.stringLit s) value raw) ∧
    ((¬ ∃ t : Instant, s = t.text) → ∃ e, setValue ⟨tabName, name, .datetime, 8, offset⟩ (.stringLit s) = .error e) := by
  constructor
  · rintro ⟨t, rfl⟩
    have hnonneg : (0 : ℤ) ≤ t.packed := Int.natCast_nonneg _
    have hrange : -2 ^ 63 ≤ (t.packed : ℤ) ∧ (t.packed : ℤ) < 2 ^ 63 := ⟨by omega, packed_lt t⟩
    refine ⟨⟨.datetime t.packed, some (intBytes 8 t.packed)⟩, intBytes 8 t.packed, ?_, rfl, rfl, length_intBytes 8 _, ?_⟩
    · simp only [setValue, convertSvValue, Value.coerceValueType, parse_text]
      rfl
    · intro rec rest hrec
      change formatDatetimeValue (leInt 8 (rec.drop offset)) = t.text
      rw [hrec, leInt_intBytes_append (by decide) hrange, format_packed]
  · intro hno
    rcases hparse : parseDatetimeString s with _ | e
    · refine ⟨.invalidDateTime s, ?_⟩
      simp only [setValue, convertSvValue, Value.coerceValueType, hparse]
      rfl
    · obtain ⟨t, hs, -⟩ := exists_instant hparse
      exact absurd ⟨t, hs⟩ hno

theorem setValue_string {len : ℕ} {s : Bytes} (hzero : 0 ∉ s) :
    (s.length ≤ len → ∃ value raw, SetTo floatText ⟨tabName, name, .string, len, offset⟩ (.stringLit s) value raw) ∧
    (¬ s.length ≤ len → ∃ e, setValue ⟨tabName, name, .string, len, offset⟩ (.stringLit s) = .error e) := by
  constructor
  · intro hle
    have hover : ¬ len < s.length := not_lt.mpr hle
    have hraw : (s ++ List.replicate (len - s.length) (0 : UInt8)).length = len := by
      rw [List.length_append, List.length_replicate]
      omega
    refine ⟨⟨.str s, some (s ++ List.replicate (len - s.length) 0)⟩, _, ?_, rfl, rfl, hraw, ?_⟩
    · simp only [setValue, convertSvValue, Value.coerceValueType, if_neg hover]
      change Value.initRaw ⟨.str s, none⟩ len = _
      simp only [Value.initRaw, if_neg hover]
      rfl
    · intro rec rest hrec
      change ((rec.drop offset).take len).takeWhile (· ≠ 0) = s
      have hall : ∀ b ∈ s, (decide (b ≠ 0)) = true := fun b hb => decide_eq_true fun h => hzero (h ▸ hb)
      rw [hrec, List.take_append_of_le_length (le_of_eq hraw.symm), List.take_of_length_le (le_of_eq hraw),
        List.takeWhile_append_of_pos hall]
      cases len - s.length with
      | zero => exact List.append_nil s
      | succ n => exact List.append_nil s
  · intro hlt
    refine ⟨.stringOverflow, ?_⟩
    simp only [setValue, convertSvValue, Value.coerceValueType, if_pos (not_le.mp hlt)]
    rfl

/-- **One literal** is turned into a value of the column's type exactly if it fits. -/
theorem setValue_spec (hlen : col.LenOk) (hfloat : col.type ≠ .float) (hlit : LiteralOk val) :
    (LiteralFits col val → ∃ value raw, SetTo floatText col val value raw) ∧
    (¬ LiteralFits col val → ∃ e, setValue col val = .error e) := by
  obtain ⟨tabName, name, type, len, offset⟩ := col
  cases type with
  | float => exact absurd rfl hfloat
  | int =>
    obtain rfl : len = 4 := hlen
    cases val with
    | intLit v => exact setValue_int floatText v
    | floatLit | stringLit => exact ⟨False.elim, fun _ => ⟨_, rfl⟩⟩
  | bigint =>
    obtain rfl : len = 8 := hlen
    cases val with
    | intLit v => exact ⟨fun _ => setValue_bigint floatText hlit, fun hno => absurd trivial hno⟩
    | floatLit | stringLit => exact ⟨False.elim, fun _ => ⟨_, rfl⟩⟩
  | datetime =>
    obtain rfl : len = 8 := hlen
    cases val with
    | stringLit s => exact setValue_datetime floatText s
    | intLit | floatLit => exact ⟨False.elim, fun _ => ⟨_, rfl⟩⟩
  | string =>
    cases val with
    | stringLit s => exact setValue_string floatText hlit
    | intLit | floatLit => exact ⟨False.elim, fun _ => ⟨_, rfl⟩⟩

end Literals

/-! ### The record -/

section Rows

variable (floatText : ℕ → Bytes)

/-- The values of a row with their bytes. -/
inductive SetRow : List (ColMeta × SvValue) → List Value → List Bytes → Prop where
  | nil : SetRow [] [] []
  | cons {col val value raw rest values raws} : SetTo floatText col val value raw → SetRow rest values raws →
      SetRow ((col, val) :: rest) (value :: values) (raw :: raws)

variable {cols : List ColMeta} {row : List (ColMeta × SvValue)} {values : List Value} {raws : List Bytes}

theorem SetRow.length (h : SetRow floatText row values raws) :
    values.length = row.length ∧ raws.flatten.length = (row.map (·.1.len)).sum := by
  induction h with
  | nil => exact ⟨rfl, rfl⟩
  | cons hset _ ih =>
    rw [List.length_cons, List.length_cons, List.flatten_cons, List.length_append, List.map_cons, List.sum_cons, ih.1, ih.2,
      hset.2.2.2.1]
    exact ⟨rfl, rfl⟩

theorem SetRow.analyzeValues (h : SetRow floatText row values raws) : analyzeValues row = .ok values := by
  induction h with
  | nil => rfl
  | cons hset _ ih =>
    rw [Execution.analyzeValues, hset.1, ih]
    rfl

/-- **The literals of a row** are turned into values exactly if all of them fit. -/
theorem analyzeValues_spec (hcols : ∀ x ∈ row, x.1.LenOk ∧ x.1.type ≠ .float) (hlits : ∀ x ∈ row, LiteralOk x.2) :
    ((∀ x ∈ row, LiteralFits x.1 x.2) → ∃ values raws, SetRow floatText row values raws) ∧
    (¬ (∀ x ∈ row, LiteralFits x.1 x.2) → ∃ e, analyzeValues row = .error e) := by
  induction row with
  | nil => exact ⟨fun _ => ⟨[], [], .nil⟩, fun hno => absurd (fun x hx => absurd hx List.not_mem_nil) hno⟩
  | cons x row ih =>
    obtain ⟨col, val⟩ := x
    rw [List.forall_mem_cons] at hcols hlits
    obtain ⟨hset, hreject⟩ := setValue_spec floatText hcols.1.1 hcols.1.2 hlits.1
    obtain ⟨hall, hsome⟩ := ih hcols.2 hlits.2
    rw [List.forall_mem_cons]
    constructor
    · rintro ⟨hfits, hrest⟩
      obtain ⟨value, raw, hvalue⟩ := hset hfits
      obtain ⟨values, raws, hvalues⟩ := hall hrest
      exact ⟨_, _, .cons hvalue hvalues⟩
    · intro hno
      rw [Execution.analyzeValues]
      by_cases hfits : LiteralFits col val
      · obtain ⟨value, raw, hvalue⟩ := hset hfits
        obtain ⟨e, he⟩ := hsome fun hrest => hno ⟨hfits, hrest⟩
        rw [hvalue.1, he]
        exact ⟨e, rfl⟩
      · obtain ⟨e, he⟩ := hreject hfits
        rw [he]
        exact ⟨e, rfl⟩

/-- **The record is the bytes of the values**, one behind the other. -/
theorem SetRow.fillRecord (h : SetRow floatText row values raws) : ∀ {A : Bytes}, Placed A.length (row.map (·.1)) →
    fillRecord ((row.map (·.1)).zip values) (A ++ List.replicate ((row.map (·.1.len)).sum) 0) = .ok (A ++ raws.flatten) := by
  induction h with
  | nil =>
    intro A _
    exact congrArg Except.ok rfl
  | @cons col val value raw rest values raws hset hrest ih =>
    rintro A ⟨hoffset, hplaced⟩
    obtain ⟨-, htype, hraw, hlen, -⟩ := hset
    have hput : put (A ++ List.replicate (((col, val) :: rest).map (·.1.len)).sum 0) col.offset (raw.take col.len) =
        (A ++ raw) ++ List.replicate ((rest.map (·.1.len)).sum) 0 := by
      rw [List.take_of_length_le (le_of_eq hlen), put_append hoffset, List.drop_replicate, List.map_cons, List.sum_cons, hlen,
        Nat.add_sub_cancel_left]
    have hsome : value.raw.isNone = false := by rw [hraw]; rfl
    rw [List.map_cons, List.zip_cons_cons, Execution.fillRecord, if_neg (not_not.mpr htype.symm), hsome]
    change (Execution.fillRecord _ (put _ col.offset ((value.raw.getD []).take col.len))) = _
    rw [hraw, Option.getD_some]
    change Execution.fillRecord _ (put (A ++ List.replicate (((col, val) :: rest).map (·.1.len)).sum 0) col.offset
      (raw.take col.len)) = _
    rw [hput, ih (by rw [List.length_append, hlen]; exact hplaced), List.flatten_cons, List.append_assoc]

/-- **The texts** of the record's columns are those of the literals. -/
theorem SetRow.columnText (h : SetRow floatText row values raws) : ∀ {A : Bytes}, Placed A.length (row.map (·.1)) →
    ∀ x ∈ row, columnText floatText x.1 (A ++ raws.flatten) = literalText floatText x.2 := by
  induction h with
  | nil => exact fun _ x hx => absurd hx List.not_mem_nil
  | @cons col val value raw rest values raws hset hrest ih =>
    rintro A ⟨hoffset, hplaced⟩ x hx
    obtain ⟨-, -, -, hlen, htext⟩ := hset
    rw [List.flatten_cons]
    rcases List.mem_cons.mp hx with rfl | hx
    · refine htext _ raws.flatten ?_
      rw [hoffset, List.drop_left]
    · rw [← List.append_assoc]
      exact ih (by rw [List.length_append, hlen]; exact hplaced) x hx

theorem recordSize_of_placed : ∀ {cols : List ColMeta} {offset : ℕ}, Placed offset cols → cols ≠ [] →
    (cols.getLast?.map fun c => c.offset + c.len).getD 0 = offset + (cols.map (·.len)).sum
  | [], _, _, hne => absurd rfl hne
  | [c], offset, ⟨hoffset, _⟩, _ => by
    rw [List.getLast?_singleton, Option.map_some, Option.getD_some, hoffset, List.map_singleton, List.sum_singleton]
  | c :: c' :: cs, offset, ⟨_, hplaced⟩, _ => by
    have ih := recordSize_of_placed hplaced (List.cons_ne_nil c' cs)
    have hsum : ((c :: c' :: cs).map (·.len)).sum = c.len + ((c' :: cs).map (·.len)).sum := by
      rw [List.map_cons, List.sum_cons]
    rw [List.getLast?_cons_cons, ih, hsum, Nat.add_assoc]

theorem recordSize_eq {tab : TabMeta} (h : SchemaOk tab) : tab.recordSize = (tab.cols.map (·.len)).sum := by
  rw [TabMeta.recordSize]
  by_cases hnil : tab.cols = []
  · rw [hnil]
    rfl
  · rw [recordSize_of_placed h.placed hnil, Nat.zero_add]

end Rows

/-- The literals fit the columns. -/
def RowFits (tab : TabMeta) (vals : List SvValue) : Prop :=
  vals.length = tab.cols.length ∧ ∀ x ∈ tab.cols.zip vals, LiteralFits x.1 x.2

variable (floatText : ℕ → Bytes) (d : Database) {tabName : String} {tab : TabMeta} {vals : List SvValue}

/-- **The analysis** of an `INSERT` accepts the literals that fit, and their record has their texts. -/
theorem analyzeInsert_spec (htab : d.meta.getTable tabName = .ok tab) (hschema : SchemaOk tab)
    (hlits : ∀ val ∈ vals, LiteralOk val) :
    (RowFits tab vals → ∃ values rec, analyzeInsert d.meta tabName vals = .ok values ∧ makeRecord tab values = .ok rec ∧
      rec.length = tab.recordSize ∧ ∀ x ∈ tab.cols.zip vals, columnText floatText x.1 rec = literalText floatText x.2) ∧
    (¬ RowFits tab vals → ∃ e, analyzeInsert d.meta tabName vals = .error e) := by
  have hcols : ∀ x ∈ tab.cols.zip vals, x.1.LenOk ∧ x.1.type ≠ .float := fun x hx => hschema.cols _ (List.of_mem_zip hx).1
  have hvals : ∀ x ∈ tab.cols.zip vals, LiteralOk x.2 := fun x hx => hlits _ (List.of_mem_zip hx).2
  obtain ⟨hset, hreject⟩ := analyzeValues_spec floatText hcols hvals
  have hanalyze : analyzeInsert d.meta tabName vals =
      if vals.length ≠ tab.cols.length then .error .invalidValueCount else analyzeValues (tab.cols.zip vals) := by
    rw [analyzeInsert, htab]
    rfl
  constructor
  · rintro ⟨hlen, hfits⟩
    obtain ⟨values, raws, hrow⟩ := hset hfits
    have hfst : (tab.cols.zip vals).map (·.1) = tab.cols := List.map_fst_zip (le_of_eq hlen.symm)
    have hsum : ((tab.cols.zip vals).map (·.1.len)).sum = tab.recordSize := by
      have hmap : (tab.cols.zip vals).map (·.1.len) = ((tab.cols.zip vals).map (·.1)).map (·.len) := by
        rw [List.map_map]
        rfl
      rw [recordSize_eq hschema, hmap, hfst]
    have hplaced : Placed ([] : Bytes).length ((tab.cols.zip vals).map (·.1)) := by
      rw [hfst]
      exact hschema.placed
    obtain ⟨hvalues, hraws⟩ := hrow.length floatText
    have hfill := hrow.fillRecord floatText hplaced
    have htext := hrow.columnText floatText hplaced
    rw [hfst, hsum, List.nil_append, List.nil_append] at hfill
    rw [List.length_zip, hlen, Nat.min_self] at hvalues
    refine ⟨values, raws.flatten, ?_, ?_, hraws.trans hsum, htext⟩
    · rw [hanalyze, if_neg (not_not.mpr hlen), hrow.analyzeValues floatText]
    · rw [makeRecord, if_neg (not_not.mpr hvalues), hfill]
  · intro hno
    rw [hanalyze]
    by_cases hlen : vals.length = tab.cols.length
    · obtain ⟨e, he⟩ := hreject fun hfits => hno ⟨hlen, hfits⟩
      rw [if_neg (not_not.mpr hlen), he]
      exact ⟨e, rfl⟩
    · rw [if_pos hlen]
      exact ⟨_, rfl⟩

/-- **What is inserted is what is read**: the record of the values that the analysis makes of the literals has their texts.
The analysis accepts exactly the literals that fit, and a statement it refuses changes nothing. The literals are those that
a parser makes, by `parseRequest_literals`. -/
theorem insert_exact (htab : d.meta.getTable tabName = .ok tab) (hschema : SchemaOk tab)
    (hlits : ∀ val ∈ vals, LiteralOk val) :
    (∀ values, analyzeInsert d.meta tabName vals = .ok values → ∃ rec, makeRecord tab values = .ok rec ∧
      rec.length = tab.recordSize ∧ ∀ x ∈ tab.cols.zip vals, columnText floatText x.1 rec = literalText floatText x.2) ∧
    (RowFits tab vals ↔ ∃ values, analyzeInsert d.meta tabName vals = .ok values) ∧
    (¬ RowFits tab vals → ∃ e, execInsert tabName vals d = (d, some e)) := by
  obtain ⟨hfits, hreject⟩ := analyzeInsert_spec floatText d htab hschema hlits
  have haccept : ∀ {values}, analyzeInsert d.meta tabName vals = .ok values → RowFits tab vals := fun {values} hvalues => by
    by_contra hno
    obtain ⟨e, he⟩ := hreject hno
    rw [he] at hvalues
    cases hvalues
  refine ⟨?_, ⟨?_, fun ⟨_, hvalues⟩ => haccept hvalues⟩, ?_⟩
  · intro values hvalues
    obtain ⟨values', rec, hvalues', hrec⟩ := hfits (haccept hvalues)
    obtain rfl : values' = values := Except.ok.inj (hvalues'.symm.trans hvalues)
    exact ⟨rec, hrec⟩
  · intro hrow
    obtain ⟨values, -, hvalues, -⟩ := hfits hrow
    exact ⟨values, hvalues⟩
  · intro hno
    obtain ⟨e, he⟩ := hreject hno
    exact ⟨e, by rw [execInsert, he]⟩

/-- A table of an `INT`, a `CHAR(3)` and a `DATETIME`. -/
def tabEvent : TabMeta :=
  ⟨"event", [⟨"event", "id", .int, 4, 0⟩, ⟨"event", "kind", .string, 3, 4⟩, ⟨"event", "at", .datetime, 8, 7⟩], []⟩

/-- It is the only table, and empty. -/
def databaseEvent : Database := ⟨fun _ => some (.create tabEvent ⟨1, 507, Record.RM_NO_PAGE, fun _ => ⟨0, 0, []⟩⟩ 4), []⟩

/-- A row for it. -/
def rowEvent : List SvValue := [.intLit (-2147483648), .stringLit (bytes "abc"), .stringLit (bytes "2024-02-29 23:59:59")]

/-- The least integer, a text of full length and a leap day are stored, and read again. -/
theorem insert_exact_event : ∃ values rec, analyzeInsert databaseEvent.meta "event" rowEvent = .ok values ∧
    makeRecord tabEvent values = .ok rec ∧ rec.length = 15 ∧
    tabEvent.cols.map (fun col => columnText (fun _ => []) col rec) =
      [bytes "-2147483648", bytes "abc", bytes "2024-02-29 23:59:59"] := by
  have hlits : ∀ val ∈ rowEvent, LiteralOk val := by
    simp only [rowEvent, List.forall_mem_cons]
    exact ⟨⟨by decide, by decide⟩, show 0 ∉ bytes "abc" by decide, show 0 ∉ bytes "2024-02-29 23:59:59" by decide,
      List.forall_mem_nil _⟩
  have hschema : SchemaOk tabEvent := ⟨⟨rfl, rfl, rfl, trivial⟩, by decide⟩
  have htab : databaseEvent.meta.getTable "event" = .ok tabEvent := rfl
  obtain ⟨values, hvalues⟩ : ∃ values, analyzeInsert databaseEvent.meta "event" rowEvent = .ok values := ⟨_, rfl⟩
  obtain ⟨hexact, -, -⟩ := insert_exact (fun _ => []) databaseEvent htab hschema hlits
  obtain ⟨rec, hrec, hlen, htexts⟩ := hexact values hvalues
  refine ⟨values, rec, hvalues, hrec, hlen, ?_⟩
  have hint := htexts (⟨"event", "id", .int, 4, 0⟩, .intLit (-2147483648)) (.head _)
  have hkind := htexts (⟨"event", "kind", .string, 3, 4⟩, .stringLit (bytes "abc")) (.tail _ (.head _))
  have hat := htexts (⟨"event", "at", .datetime, 8, 7⟩, .stringLit (bytes "2024-02-29 23:59:59")) (.tail _ (.tail _ (.head _)))
  simp only [tabEvent, List.map_cons, List.map_nil, hint, hkind, hat]
  rfl

end Rmdb.Execution
