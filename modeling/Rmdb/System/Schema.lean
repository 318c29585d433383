import Rmdb.System.Catalog
import Mathlib.Algebra.Order.BigOperators.Group.List
import Mathlib.Algebra.Ring.Int.Defs
import Mathlib.Algebra.Order.Group.Int
import Mathlib.Data.Set.Basic

/-!
# From the fields of `CREATE TABLE` to a schema

The grammar reads a field as a name and a type, and `CHAR` carries a signed 64-bit length.
`TypeLen` narrows that length to `int`, the planner turns the fields into column definitions,
and `create_table` places the columns one after another, each at the sum of the lengths before
it. The sum is an `int` that wraps; only its last value is checked, against `1..512`.

The schema is well formed when the columns have at least one byte each, distinct names, and
ranges of bytes that tile the record, and when none of these numbers has wrapped. Under a sum
of at most 512 that is a condition on the fields alone.
-/

namespace Rmdb

/-- `ast::SvType`. -/
inductive SvType where
  /-- `SV_TYPE_INT`. -/
  | int
  /-- `SV_TYPE_FLOAT`. -/
  | float
  /-- `SV_TYPE_STRING`. -/
  | string
  /-- `SV_TYPE_BIGINT`. -/
  | bigint
  /-- `SV_TYPE_DATETIME`. -/
  | datetime
deriving DecidableEq

/-- `interp_sv_type`. -/
def interpSvType : SvType → ColType
  | .int => .int
  | .float => .float
  | .string => .string
  | .bigint => .bigint
  | .datetime => .datetime

namespace Catalog

/-- What the grammar accepts as a `type`. -/
inductive TypeSyntax where
  /-- `INT`. -/
  | int
  /-- `BIGINT`. -/
  | bigint
  /-- `CHAR ( VALUE_INT )`. -/
  | char (len : Int64)
  /-- `FLOAT`. -/
  | float
  /-- `DATETIME`. -/
  | datetime
deriving DecidableEq

/-- `ast::TypeLen`. -/
structure TypeLen where
  /-- `type`. -/
  type : SvType
  /-- `len`. -/
  len : Int32
deriving DecidableEq

/-- The node the grammar builds for a type; the length of a `CHAR` becomes an `int` here. -/
def TypeSyntax.typeLen : TypeSyntax → TypeLen
  | .int => ⟨.int, 4⟩
  | .bigint => ⟨.bigint, 8⟩
  | .char len => ⟨.string, len.toInt32⟩
  | .float => ⟨.float, 4⟩
  | .datetime => ⟨.datetime, 8⟩

/-- The length that was declared, before it is narrowed. -/
def TypeSyntax.declaredLen : TypeSyntax → ℤ
  | .int => 4
  | .bigint => 8
  | .char len => len.toInt
  | .float => 4
  | .datetime => 8

/-- A `field` of `CREATE TABLE`. -/
structure Field where
  /-- `col_name`. -/
  colName : String
  /-- `type_len`, as it was written. -/
  type : TypeSyntax
deriving DecidableEq

/-- `ColDef`. -/
structure ColDef where
  /-- `name`. -/
  name : String
  /-- `type`. -/
  type : ColType
  /-- `len`. -/
  len : Int32
deriving DecidableEq

/-- What `do_planner` makes of a field. -/
def Field.colDef (field : Field) : ColDef :=
  ⟨field.colName, interpSvType field.type.typeLen.type, field.type.typeLen.len⟩

/-- The loop of `create_table`: the columns, and `curr_offset` after the last of them. -/
def placeCols (tabName : String) : Int32 → List ColDef → List ColMeta × Int32
  | currOffset, [] => ([], currOffset)
  | currOffset, colDef :: colDefs =>
    let (cols, recordSize) := placeCols tabName (currOffset + colDef.len) colDefs
    (⟨tabName, colDef.name, colDef.type, colDef.len, currOffset, false⟩ :: cols, recordSize)

/-- The bytes of a column in a record, `[offset, offset + len)`. -/
def ColMeta.range (col : ColMeta) : Set ℤ := {n | col.offset.toInt ≤ n ∧ n < col.offset.toInt + col.len.toInt}

/-- The lengths with the exact sum of the lengths before each. -/
def exactPlaces : ℤ → List ℤ → List (ℤ × ℤ)
  | _, [] => []
  | offset, len :: lens => (offset, len) :: exactPlaces (offset + len) lens

/-- **A well-formed schema** for the fields it was made from. -/
structure SchemaOk (fields : List Field) (cols : List ColMeta) (recordSize : Int32) : Prop where
  /-- Every column has a byte. -/
  len : ∀ col ∈ cols, 1 ≤ col.len.toInt
  /-- The names are distinct. -/
  names : (cols.map (·.name)).Nodup
  /-- The ranges are disjoint. -/
  disjoint : cols.Pairwise fun col col' => ∀ n ∈ col.range, n ∉ col'.range
  /-- The ranges cover the record. -/
  cover : ∀ n : ℤ, (∃ col ∈ cols, n ∈ col.range) ↔ 0 ≤ n ∧ n < recordSize.toInt
  /-- No length and no offset has wrapped. -/
  exact : cols.map (fun col => (col.offset.toInt, col.len.toInt)) =
    exactPlaces 0 (fields.map (·.type.declaredLen))
  /-- The sum has not wrapped. -/
  size : recordSize.toInt = (fields.map (·.type.declaredLen)).sum

/-! ### What the fields have to be -/

variable {tabName : String} {fields : List Field} {a : Int32}

/-- A length that fits into an `int` is kept. -/
theorem TypeSyntax.toInt_typeLen {type : TypeSyntax} (h : 1 ≤ type.declaredLen) (h' : type.declaredLen ≤ 512) :
    type.typeLen.len.toInt = type.declaredLen := by
  cases type with
  | char len =>
    simp only [typeLen, declaredLen] at h h' ⊢
    rw [Int64.toInt_toInt32]
    exact Int.bmod_eq_of_le (by omega) (by omega)
  | _ => rfl

theorem toInt_add {b : Int32} (h : 0 ≤ a.toInt + b.toInt) (h' : a.toInt + b.toInt ≤ 512) :
    (a + b).toInt = a.toInt + b.toInt := by
  rw [Int32.toInt_add]
  exact Int.bmod_eq_of_le (by omega) (by omega)

theorem placeCols_names (colDefs : List ColDef) :
    ∀ a, ((placeCols tabName a colDefs).1.map (·.name)) = colDefs.map (·.name) := by
  induction colDefs with
  | nil => exact fun _ => rfl
  | cons colDef colDefs ih => exact fun a => congrArg (colDef.name :: ·) (ih (a + colDef.len))

/-- Columns placed from `a` on, with exact lengths and a sum that stays small. -/
theorem placeCols_exact (tabName : String) {defs : List Field} (hpos : ∀ f ∈ defs, 1 ≤ f.type.declaredLen) :
    ∀ a : Int32, 0 ≤ a.toInt → a.toInt + (defs.map (·.type.declaredLen)).sum ≤ 512 →
      (placeCols tabName a (defs.map Field.colDef)).1.map (fun col => (col.offset.toInt, col.len.toInt)) =
        exactPlaces a.toInt (defs.map (·.type.declaredLen)) ∧
      (placeCols tabName a (defs.map Field.colDef)).2.toInt = a.toInt + (defs.map (·.type.declaredLen)).sum := by
  induction defs with
  | nil => exact fun a _ _ => ⟨rfl, (Int.add_zero _).symm⟩
  | cons f defs ih =>
    intro a ha hsum
    rw [List.map_cons, List.sum_cons] at hsum
    have hf := hpos f List.mem_cons_self
    have hrest : 0 ≤ (defs.map (·.type.declaredLen)).sum := List.sum_nonneg fun x hx => by
      obtain ⟨g, hg, rfl⟩ := List.mem_map.mp hx
      have := hpos g (List.mem_cons_of_mem f hg)
      omega
    have hlen : f.colDef.len.toInt = f.type.declaredLen := TypeSyntax.toInt_typeLen hf (by omega)
    have hnext : (a + f.colDef.len).toInt = a.toInt + f.type.declaredLen := by
      rw [toInt_add (by omega) (by omega), hlen]
    obtain ⟨hplaces, hsize⟩ := ih (fun g hg => hpos g (List.mem_cons_of_mem f hg)) (a + f.colDef.len) (by omega) (by omega)
    rw [hnext] at hplaces hsize
    constructor
    · simp only [List.map_cons, placeCols, exactPlaces]
      rw [hplaces, hlen]
    · simp only [List.map_cons, placeCols, List.sum_cons]
      rw [hsize]
      omega

theorem exactPlaces_lens (lens : List ℤ) : ∀ offset, (exactPlaces offset lens).map (·.2) = lens := by
  induction lens with
  | nil => exact fun _ => rfl
  | cons len lens ih => exact fun offset => congrArg (len :: ·) (ih (offset + len))

/-- Exact places with positive lengths are in order and tile their range. -/
theorem exactPlaces_tile {lens : List ℤ} (hpos : ∀ len ∈ lens, 1 ≤ len) : ∀ offset : ℤ,
    (∀ p ∈ exactPlaces offset lens, offset ≤ p.1 ∧ 1 ≤ p.2) ∧
    (exactPlaces offset lens).Pairwise (fun p q => p.1 + p.2 ≤ q.1) ∧
    ∀ n, (∃ p ∈ exactPlaces offset lens, p.1 ≤ n ∧ n < p.1 + p.2) ↔ offset ≤ n ∧ n < offset + lens.sum := by
  induction lens with
  | nil =>
    intro offset
    refine ⟨fun p hp => (by cases hp), .nil, ?_⟩
    intro n
    simp only [exactPlaces, List.not_mem_nil, false_and, exists_false, List.sum_nil, false_iff]
    omega
  | cons len lens ih =>
    intro offset
    have hlen := hpos len List.mem_cons_self
    obtain ⟨hlow, hpair, hcover⟩ := ih (fun l hl => hpos l (List.mem_cons_of_mem len hl)) (offset + len)
    refine ⟨?_, List.pairwise_cons.mpr ⟨fun q hq => (hlow q hq).1, hpair⟩, ?_⟩
    · intro p hp
      rcases List.mem_cons.mp hp with rfl | hp
      · exact ⟨le_refl _, hlen⟩
      · have := hlow p hp
        omega
    · intro n
      have hsum : 0 ≤ lens.sum := List.sum_nonneg fun x hx => by
        have := hpos x (List.mem_cons_of_mem len hx)
        omega
      simp only [exactPlaces, List.exists_mem_cons_iff, hcover, List.sum_cons]
      omega

/-- **When the schema is well formed**: with a checked sum, exactly when the fields' names are distinct, each
declared length is at least 1, and the declared lengths add up to at most 512. -/
theorem schemaOk_iff (hsize : (placeCols tabName 0 (fields.map Field.colDef)).2.toInt ≤ 512) :
    SchemaOk fields (placeCols tabName 0 (fields.map Field.colDef)).1 (placeCols tabName 0 (fields.map Field.colDef)).2 ↔
      (fields.map (·.colName)).Nodup ∧ (∀ f ∈ fields, 1 ≤ f.type.declaredLen) ∧
        (fields.map (·.type.declaredLen)).sum ≤ 512 := by
  have hnames : (placeCols tabName 0 (fields.map Field.colDef)).1.map (·.name) = fields.map (·.colName) := by
    rw [placeCols_names, List.map_map]
    rfl
  constructor
  · intro h
    refine ⟨hnames ▸ h.names, ?_, h.size ▸ hsize⟩
    intro f hf
    -- the stored lengths are the declared ones, and the stored ones are positive
    have hmem : f.type.declaredLen ∈ fields.map (·.type.declaredLen) := List.mem_map_of_mem hf
    rw [← exactPlaces_lens (fields.map _) 0, ← h.exact, List.map_map] at hmem
    obtain ⟨col, hcol, hlen⟩ := List.mem_map.mp hmem
    exact hlen ▸ h.len col hcol
  · rintro ⟨hnodup, hpos, hsum⟩
    obtain ⟨hexact, htotal⟩ := placeCols_exact tabName hpos 0 (le_refl _) (by simpa using hsum)
    have hzero : (0 : Int32).toInt = 0 := rfl
    rw [hzero] at hexact
    rw [hzero, Int.zero_add] at htotal
    have hlens : ∀ len ∈ fields.map (·.type.declaredLen), 1 ≤ len := fun len hlen => by
      obtain ⟨f, hf, rfl⟩ := List.mem_map.mp hlen
      exact hpos f hf
    obtain ⟨hlow, hpair, hcover⟩ := exactPlaces_tile hlens 0
    rw [← hexact] at hlow hpair hcover
    refine ⟨fun col hcol => (hlow _ (List.mem_map_of_mem hcol)).2, hnames ▸ hnodup, ?_, ?_, hexact, htotal⟩
    · refine (List.pairwise_map.mp hpair).imp fun hle => ?_
      rintro n ⟨-, hlt⟩ ⟨hge, -⟩
      omega
    · intro n
      rw [htotal]
      have h := hcover n
      rw [Int.zero_add] at h
      rw [← h]
      constructor
      · rintro ⟨col, hcol, hn⟩
        exact ⟨_, List.mem_map_of_mem hcol, hn⟩
      · rintro ⟨_, hp, hn⟩
        obtain ⟨col, hcol, rfl⟩ := List.mem_map.mp hp
        exact ⟨col, hcol, hn⟩

end Catalog

end Rmdb
