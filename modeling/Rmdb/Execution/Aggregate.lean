import Rmdb.Execution.Join
import Rmdb.Lib.Buffer
import Rmdb.Parser.Yacc

/-!
# Aggregates

`AggregateExecutor` runs once through its child and writes one row: a count, the sum of a column,
or its greatest or its least value, for every call, one behind the other. `MAX` and `MIN` keep the
bytes of a value and compare the next one with them: `INT` as an integer and `FLOAT` as a single, but
everything else with `memcmp`. On a `BIGINT` or `DATETIME` column, which is little-endian and signed,
that is another order than the one of conditions, `ORDER BY` and indexes (`max_min_iff`).

The arithmetic of `double` in `SUM` is taken as given (`DoubleOps`).
-/

namespace Rmdb.Execution

open Lib
open Rmdb.Parser (AggFuncType)

/-- `AggCall`. -/
structure AggCall where
  /-- `func_type`. -/
  funcType : AggFuncType
  /-- `col`; not read for a count. -/
  col : TabCol
  /-- `alias`. -/
  aliasName : String

/-- The arithmetic of `double`, as far as `SUM` uses it. -/
structure DoubleOps where
  /-- `double`. -/
  carrier : Type
  /-- `0`. -/
  zero : carrier
  /-- `+=` of an `int`. -/
  addInt : carrier → ℤ → carrier
  /-- `+=` of the `float` with this bit pattern. -/
  addFloat : carrier → ℕ → carrier
  /-- `static_cast<int>`. -/
  toInt : carrier → ℤ
  /-- `static_cast<float>`, as a bit pattern. -/
  toFloat : carrier → ℕ

/-- What is kept for a call beside its bytes in the result: `initialized[i]`, `sums[i]` and `counts[i]`. -/
structure AggAcc (D : DoubleOps) where
  /-- `initialized[i]`. -/
  initialized : Bool
  /-- `sums[i]`. -/
  sum : D.carrier
  /-- `counts[i]`. -/
  count : Int32

/-- The type and the length of the column of a call. -/
def aggShape (prevCols : List ColMeta) (agg : AggCall) : Except RMDBError (ColType × ℕ) :=
  if agg.funcType = .count then .ok (.int, 4) else (getCol prevCols agg.col).map ColMeta.shape

/-- The columns that the constructor makes, from an offset on. -/
def aggCols (prevCols : List ColMeta) : ℕ → List AggCall → Except RMDBError (List ColMeta)
  | _, [] => .ok []
  | offset, agg :: aggs => do
    let (type, len) ← aggShape prevCols agg
    let cols ← aggCols prevCols (offset + len) aggs
    .ok (⟨"", agg.aliasName, type, len, offset⟩ :: cols)

/-- `cmp` of a value with the one in the result. -/
def aggCmp (type : ColType) (len : ℕ) (src dest : Bytes) : ℤ :=
  match type with
  | .int => sign3 (leInt 4 src) (leInt 4 dest)
  | .float => compareFloat src dest
  | _ => memcmp len src dest

section Model

variable {D : DoubleOps} (prevCols : List ColMeta)

/-- One row for one call. -/
def aggStep (rec : Bytes) (agg : AggCall) (col : ColMeta) (acc : AggAcc D) (result : Bytes) : Except RMDBError (AggAcc D × Bytes) :=
  if agg.funcType = .count then .ok ({ acc with count := acc.count + 1 }, result)
  else do
    let srcCol ← getCol prevCols agg.col
    let src := rec.drop srcCol.offset
    if agg.funcType = .sum then
      if srcCol.type = .int then .ok ({ acc with sum := D.addInt acc.sum (leInt 4 src), initialized := true }, result)
      else if srcCol.type = .float then .ok ({ acc with sum := D.addFloat acc.sum (leNat 4 src), initialized := true }, result)
      else .error .sumType
    else if acc.initialized = false then
      .ok ({ acc with initialized := true }, put result col.offset (src.take srcCol.len))
    else
      let cmp := aggCmp srcCol.type srcCol.len src (result.drop col.offset)
      if agg.funcType = .max ∧ 0 < cmp ∨ agg.funcType = .min ∧ cmp < 0 then
        .ok (acc, put result col.offset (src.take srcCol.len))
      else .ok (acc, result)

/-- One row. -/
def aggRow (rec : Bytes) : List (AggCall × ColMeta) → List (AggAcc D) → Bytes → Except RMDBError (List (AggAcc D) × Bytes)
  | (agg, col) :: calls, acc :: accs, result => do
    let (acc, result) ← aggStep prevCols rec agg col acc result
    let (accs, result) ← aggRow rec calls accs result
    .ok (acc :: accs, result)
  | _, _, result => .ok ([], result)

/-- The loop behind the last row, which writes the counts and the sums. -/
def aggFinish : List (AggCall × ColMeta) → List (AggAcc D) → Bytes → Bytes
  | (agg, col) :: calls, acc :: accs, result =>
    aggFinish calls accs <|
      match agg.funcType with
      | .count => put result col.offset (intBytes 4 acc.count.toInt)
      | .sum =>
        if col.type = .int then put result col.offset (intBytes 4 (D.toInt acc.sum))
        else put result col.offset (leBytes 4 (D.toFloat acc.sum))
      | .max | .min => result
  | _, _, result => result

/-- `len_`. -/
def aggLen (cols : List ColMeta) : ℕ := (cols.map (·.len)).sum

/-- The state of an aggregate, with the state of its child. -/
structure AggregateState (S : Type) where
  /-- `prev_`. -/
  prev : S
  /-- `result_`. -/
  result : Option Bytes
  /-- `produced_`. -/
  produced : Bool
  /-- `end_`. -/
  isend : Bool

variable {S : Type} (D) (prev : Executor S) (aggs : List AggCall) (cols : List ColMeta) (rounds : ℕ)

/-- The body of the loop of `beginTuple`. -/
def aggBody (st : List (AggAcc D) × Bytes) (rec : Option Bytes) : Except RMDBError (List (AggAcc D) × Bytes) :=
  match rec with
  | some rec => aggRow prevCols rec (aggs.zip cols) st.1 st.2
  | none => .error .assertion

/-- What the loop of `beginTuple` starts with. -/
def aggInit : List (AggAcc D) × Bytes := (aggs.map fun _ => ⟨false, D.zero, 0⟩, List.replicate (aggLen cols) 0)

/-- `beginTuple`. -/
def aggBegin (s : AggregateState S) : Except RMDBError (AggregateState S) := do
  let prevState ← prev.start s.prev
  let (prevState, accs, result) ← prev.fold .assertion (aggBody D prevCols aggs cols) rounds prevState (aggInit D aggs cols)
  .ok ⟨prevState, some (aggFinish (aggs.zip cols) accs result), false, false⟩

/-- `AggregateExecutor`. -/
def aggregate : Executor (AggregateState S) where
  isEnd s := s.isend || s.produced
  read s := .ok (if s.isend || s.produced then none else s.result)
  next s := .ok { s with produced := true, isend := true }
  start s := aggBegin D prevCols prev aggs cols rounds s

end Model

/-! ### The order that is used -/

/-- The type by which `MAX` and `MIN` compare a column. -/
def cmpType : ColType → ColType
  | .bigint | .datetime => .string
  | type => type

theorem aggCmp_eq (type : ColType) (len : ℕ) (a b : Bytes) : aggCmp type len a b = compareCol (cmpType type) len a b := by
  cases type <;> rfl

theorem keyCol_cmpType {c : ColType × ℕ} (h : KeyCol c) : KeyCol (cmpType c.1, c.2) := by
  obtain ⟨type, len⟩ := c
  cases type with
  | float => exact h.elim
  | int => exact h
  | string | bigint | datetime => trivial

/-- The greatest of the values in an order for `MAX`, and the least for `MIN`. -/
def Extreme (funcType : AggFuncType) (cmp : Bytes → Bytes → ℤ) (values : List Bytes) (v : Bytes) : Prop :=
  v ∈ values ∧ ∀ w ∈ values, (funcType = .max → cmp w v ≤ 0) ∧ (funcType = .min → 0 ≤ cmp w v)

section Extreme

variable {funcType : AggFuncType} {cmp : Bytes → Bytes → ℤ} {values : List Bytes} {v w : Bytes}

/-- A value that is not better changes nothing. -/
theorem Extreme.snoc (h : Extreme funcType cmp values v) (hw : ¬ (funcType = .max ∧ 0 < cmp w v ∨ funcType = .min ∧ cmp w v < 0)) :
    Extreme funcType cmp (values ++ [w]) v := by
  refine ⟨List.mem_append_left _ h.1, ?_⟩
  intro x hx
  rcases List.mem_append.mp hx with hx | hx
  · exact h.2 x hx
  · obtain rfl := List.mem_singleton.mp hx
    exact ⟨fun hmax => not_lt.mp fun hlt => hw (.inl ⟨hmax, hlt⟩), fun hmin => not_lt.mp fun hlt => hw (.inr ⟨hmin, hlt⟩)⟩

/-- A value that is better takes the place. -/
theorem Extreme.snoc_better (h : Extreme funcType cmp values v) (hcmp : ThreeWay cmp)
    (hw : funcType = .max ∧ 0 < cmp w v ∨ funcType = .min ∧ cmp w v < 0) : Extreme funcType cmp (values ++ [w]) w := by
  have hneg := hcmp.neg
  refine ⟨List.mem_append_right _ (List.mem_singleton_self w), ?_⟩
  intro x hx
  rcases List.mem_append.mp hx with hx | hx
  · obtain ⟨hmax, hmin⟩ := h.2 x hx
    rcases hw with ⟨rfl, hlt⟩ | ⟨rfl, hlt⟩
    · exact ⟨fun _ => hcmp.trans (hmax rfl) (by rw [hneg]; omega), fun hmin => by cases hmin⟩
    · refine ⟨fun hmax => (by cases hmax), ?_⟩
      intro _
      have hxv := hmin rfl
      have hwx : cmp w x ≤ 0 := hcmp.trans (le_of_lt hlt) (by rw [hneg]; omega)
      rw [hneg w x]
      omega
  · obtain rfl := List.mem_singleton.mp hx
    rw [hcmp.self]
    exact ⟨fun _ => le_refl _, fun _ => le_refl _⟩

/-- Two extreme values are equal in the order. -/
theorem Extreme.unique (hf : funcType = .max ∨ funcType = .min) (hcmp : ThreeWay cmp) (hv : Extreme funcType cmp values v)
    (hw : Extreme funcType cmp values w) : cmp v w = 0 := by
  obtain ⟨hmax, hmin⟩ := hw.2 v hv.1
  obtain ⟨hmax', hmin'⟩ := hv.2 w hw.1
  have hneg := hcmp.neg v w
  rcases hf with hf | hf
  · have h₁ := hmax hf
    have h₂ := hmax' hf
    omega
  · have h₁ := hmin hf
    have h₂ := hmin' hf
    omega

theorem Extreme.perm {values' : List Bytes} (h : Extreme funcType cmp values v) (hperm : values'.Perm values) :
    Extreme funcType cmp values' v :=
  ⟨hperm.mem_iff.mpr h.1, fun w hw => h.2 w (hperm.mem_iff.mp hw)⟩

/-- The value that is kept when another one comes. -/
def keep (funcType : AggFuncType) (cmp : Bytes → Bytes → ℤ) (best : Option Bytes) (value : Bytes) : Option Bytes :=
  match best with
  | none => some value
  | some old => if funcType = .max ∧ 0 < cmp value old ∨ funcType = .min ∧ cmp value old < 0 then some value else some old

/-- The value that is kept of all of them. -/
def kept (funcType : AggFuncType) (cmp : Bytes → Bytes → ℤ) (values : List Bytes) : Option Bytes :=
  values.foldl (keep funcType cmp) none

theorem kept_concat (values : List Bytes) (w : Bytes) :
    kept funcType cmp (values ++ [w]) = keep funcType cmp (kept funcType cmp values) w := by
  rw [kept, List.foldl_append]
  rfl

theorem mem_of_kept (h : kept funcType cmp values = some v) : v ∈ values := by
  induction values using List.reverseRecOn generalizing v with
  | nil => cases h
  | append_singleton values w ih =>
    rw [kept_concat] at h
    rcases hold : kept funcType cmp values with _ | old
    · rw [hold] at h
      cases h
      exact List.mem_append_right _ (List.mem_singleton_self w)
    · rw [hold, keep] at h
      split at h
      · cases h
        exact List.mem_append_right _ (List.mem_singleton_self w)
      · cases h
        exact List.mem_append_left _ (ih hold)

/-- **The value that is kept is extreme.** -/
theorem extreme_kept (hcmp : ThreeWay cmp) (hne : values ≠ []) :
    ∃ v, kept funcType cmp values = some v ∧ Extreme funcType cmp values v := by
  induction values using List.reverseRecOn with
  | nil => exact absurd rfl hne
  | append_singleton values w ih =>
    rw [kept_concat]
    rcases eq_or_ne values [] with rfl | hvalues
    · refine ⟨w, rfl, List.mem_singleton_self w, ?_⟩
      intro x hx
      rw [List.mem_singleton.mp hx, hcmp.self]
      exact ⟨fun _ => le_refl _, fun _ => le_refl _⟩
    · obtain ⟨v, hv, hextreme⟩ := ih hvalues
      rw [hv, keep]
      by_cases hw : funcType = .max ∧ 0 < cmp w v ∨ funcType = .min ∧ cmp w v < 0
      · exact ⟨w, by rw [if_pos hw], hextreme.snoc_better hcmp hw⟩
      · exact ⟨v, by rw [if_neg hw], hextreme.snoc hw⟩

end Extreme

/-! ### The value of a call -/

/-- A column whose type says how long it is. -/
def ValueCol (c : ColType × ℕ) : Prop := KeyCol c ∨ c = (.float, 4)

section Value

variable (D : DoubleOps)

/-- One more value in a sum. -/
def sumStep (type : ColType) (sum : D.carrier) (value : Bytes) : D.carrier :=
  if type = .int then D.addInt sum (leInt 4 value) else D.addFloat sum (leNat 4 value)

/-- The sum of a column. -/
def aggSum (src : ColMeta) (rows : List Bytes) : D.carrier := (rows.map src.read).foldl (sumStep D src.type) D.zero

/-- The greatest or least value of a column, or zeros if there is no row. -/
def aggExtreme (funcType : AggFuncType) (src : ColMeta) (rows : List Bytes) : Bytes :=
  (kept funcType (aggCmp src.type src.len) (rows.map src.read)).getD (List.replicate src.len 0)

/-- **The value of a call over some rows**, in bytes. -/
def aggValue (prevCols : List ColMeta) (rows : List Bytes) (agg : AggCall) : Bytes :=
  if agg.funcType = .count then intBytes 4 (Int32.ofNat rows.length).toInt
  else
    match getCol prevCols agg.col with
    | .error _ => []
    | .ok src =>
      if agg.funcType = .sum then
        if src.type = .int then intBytes 4 (D.toInt (aggSum D src rows)) else leBytes 4 (D.toFloat (aggSum D src rows))
      else aggExtreme agg.funcType src rows

theorem aggSum_concat (src : ColMeta) (rows : List Bytes) (rec : Bytes) :
    aggSum D src (rows ++ [rec]) = sumStep D src.type (aggSum D src rows) (src.read rec) := by
  rw [aggSum, List.map_append, List.foldl_append]
  rfl

end Value

/-! ### The result as slots -/

/-- A call with its column in the result, what is kept for it, and its bytes in the result. -/
structure Slot (D : DoubleOps) where
  agg : AggCall
  col : ColMeta
  acc : AggAcc D
  dest : Bytes

/-- A call that can be evaluated, and its column in the result. -/
structure CallOk (prevCols : List ColMeta) (agg : AggCall) (col : ColMeta) : Prop where
  count : agg.funcType = .count → col.len = 4
  found : agg.funcType ≠ .count → ∃ src, getCol prevCols agg.col = .ok src ∧ col.type = src.type ∧ col.len = src.len
  sum : agg.funcType = .sum → ∀ src, getCol prevCols agg.col = .ok src → src.len = 4 ∧ (src.type = .int ∨ src.type = .float)

/-- The slots lie one behind the other. -/
def Laid {D : DoubleOps} (prevCols : List ColMeta) : ℕ → List (Slot D) → Prop
  | _, [] => True
  | n, slot :: slots => slot.col.offset = n ∧ slot.dest.length = slot.col.len ∧ CallOk prevCols slot.agg slot.col ∧
    Laid prevCols (n + slot.col.len) slots

/-- What a slot holds after some rows. -/
structure SlotOk {D : DoubleOps} (prevCols : List ColMeta) (rows : List Bytes) (slot : Slot D) : Prop where
  count : slot.agg.funcType = .count → slot.acc.count = Int32.ofNat rows.length
  sum : slot.agg.funcType = .sum → ∀ src, getCol prevCols slot.agg.col = .ok src → slot.acc.sum = aggSum D src rows
  extreme : slot.agg.funcType = .max ∨ slot.agg.funcType = .min → ∀ src, getCol prevCols slot.agg.col = .ok src →
    ValueCol src.shape →
    slot.acc.initialized = (kept slot.agg.funcType (aggCmp src.type src.len) (rows.map src.read)).isSome ∧
      slot.dest = aggExtreme slot.agg.funcType src rows

section Slots

variable {D : DoubleOps} {prevCols : List ColMeta} {rows : List Bytes} {rec : Bytes}

/-- A record that is as long as its columns need. -/
def RecOk (prevCols : List ColMeta) (rec : Bytes) : Prop := ∀ col ∈ prevCols, col.offset + col.len ≤ rec.length

instance (prevCols : List ColMeta) (rec : Bytes) : Decidable (RecOk prevCols rec) :=
  inferInstanceAs (Decidable (∀ col ∈ prevCols, _))

/-- The bytes of a column, in the record and on their own. -/
theorem getD_read (src : ColMeta) (rec : Bytes) {i : ℕ} (hi : i < src.len) :
    (rec.drop src.offset).getD i 0 = (src.read rec).getD i 0 := by
  rw [ColMeta.read, List.getD_eq_getElem?_getD, List.getD_eq_getElem?_getD, List.getElem?_take_of_lt hi]

/-- The order of `MAX` and `MIN` looks at the bytes of the column only. -/
theorem aggCmp_read {src : ColMeta} (hvalue : ValueCol src.shape) (rec dest B : Bytes) (hdest : dest.length = src.len) :
    aggCmp src.type src.len (rec.drop src.offset) (dest ++ B) = aggCmp src.type src.len (src.read rec) dest := by
  have hleft : ∀ i < src.len, (rec.drop src.offset).getD i 0 = (src.read rec).getD i 0 := fun i hi => getD_read src rec hi
  have hright : ∀ i < src.len, (dest ++ B).getD i 0 = dest.getD i 0 := fun i hi => by
    rw [List.getD_eq_getElem?_getD, List.getD_eq_getElem?_getD, List.getElem?_append_left (hdest ▸ hi)]
  rcases hvalue with hkey | hfloat
  · rw [aggCmp_eq, aggCmp_eq]
    exact compareCol_congr (c := (cmpType src.type, src.len)) (keyCol_cmpType hkey) hleft hright
  · obtain ⟨htype, hlen⟩ := Prod.mk.inj hfloat
    rw [hlen] at hleft hright
    rw [htype]
    simp only [aggCmp, compareFloat]
    rw [leNat_congr hleft, leNat_congr hright]

theorem threeWay_aggCmp {c : ColType × ℕ} (hkey : KeyCol c) : ThreeWay (aggCmp c.1 c.2) := by
  have heq : aggCmp c.1 c.2 = compareCol (cmpType c.1) c.2 := by
    funext a b
    exact aggCmp_eq c.1 c.2 a b
  rw [heq]
  exact threeWay_compareCol (keyCol_cmpType hkey).ne_float c.2

/-- The greatest or least value after one more row. -/
theorem aggExtreme_concat (rec : Bytes) {funcType : AggFuncType} {src : ColMeta} {best : Bytes} {initialized : Bool}
    (hinit : initialized = (kept funcType (aggCmp src.type src.len) (rows.map src.read)).isSome)
    (hbest : best = aggExtreme funcType src rows) :
    (kept funcType (aggCmp src.type src.len) ((rows ++ [rec]).map src.read)).isSome = true ∧
      aggExtreme funcType src (rows ++ [rec]) =
        if initialized = false ∨ funcType = .max ∧ 0 < aggCmp src.type src.len (src.read rec) best ∨
          funcType = .min ∧ aggCmp src.type src.len (src.read rec) best < 0 then src.read rec else best := by
  have hconcat : (rows ++ [rec]).map src.read = rows.map src.read ++ [src.read rec] := List.map_append
  rw [aggExtreme] at hbest ⊢
  rw [hconcat, kept_concat]
  rcases hold : kept funcType (aggCmp src.type src.len) (rows.map src.read) with _ | old
  · rw [hold] at hinit
    rw [if_pos (.inl hinit)]
    exact ⟨rfl, rfl⟩
  · rw [hold, Option.getD_some] at hbest
    rw [hold] at hinit
    rw [hinit, hbest, keep]
    by_cases hbetter : funcType = .max ∧ 0 < aggCmp src.type src.len (src.read rec) old ∨
        funcType = .min ∧ aggCmp src.type src.len (src.read rec) old < 0
    · rw [if_pos hbetter, if_pos (.inr hbetter)]
      exact ⟨rfl, rfl⟩
    · rw [if_neg hbetter, if_neg fun h => h.elim (fun h => by cases h) hbetter]
      exact ⟨rfl, rfl⟩

/-- **One row for one call**: only its slot changes, and it holds what it should after the row. -/
theorem aggStep_eq (hrec : RecOk prevCols rec) {slot : Slot D} (hcall : CallOk prevCols slot.agg slot.col)
    (hlen : slot.dest.length = slot.col.len) (hok : SlotOk prevCols rows slot) {A B : Bytes} (hA : slot.col.offset = A.length) :
    ∃ acc dest, aggStep prevCols rec slot.agg slot.col slot.acc (A ++ (slot.dest ++ B)) = .ok (acc, A ++ (dest ++ B)) ∧
      dest.length = slot.col.len ∧ SlotOk prevCols (rows ++ [rec]) { slot with acc := acc, dest := dest } := by
  by_cases hcount : slot.agg.funcType = .count
  · refine ⟨_, slot.dest, by rw [aggStep, if_pos hcount], hlen, ?_, ?_, ?_⟩
    · intro _
      rw [List.length_append, List.length_singleton, Int32.ofNat_add, hok.count hcount]
      rfl
    · intro hsum
      cases hcount.symm.trans hsum
    · intro hf
      rcases hf with hf | hf <;> cases hcount.symm.trans hf
  obtain ⟨src, hsrc, htype, hsrcLen⟩ := hcall.found hcount
  rw [aggStep, if_neg hcount, hsrc]
  simp only [bind, Except.bind]
  by_cases hsum : slot.agg.funcType = .sum
  · obtain ⟨hfour, hnum⟩ := hcall.sum hsum src hsrc
    have hbytes : ∀ i < 4, (rec.drop src.offset).getD i 0 = (src.read rec).getD i 0 :=
      fun i hi => getD_read src rec (hfour.symm ▸ hi)
    have hslot : ∀ acc : AggAcc D, acc.sum = sumStep D src.type slot.acc.sum (src.read rec) →
        SlotOk prevCols (rows ++ [rec]) { slot with acc := acc } := by
      refine fun acc hacc => ⟨fun h => absurd h hcount, ?_, ?_⟩
      · intro _ src' hsrc'
        cases hsrc.symm.trans hsrc'
        rw [aggSum_concat, ← hok.sum hsum src hsrc, hacc]
      · intro hf
        rcases hf with hf | hf <;> cases hsum.symm.trans hf
    rw [if_pos hsum]
    rcases hnum with hint | hfloat
    · rw [if_pos hint]
      exact ⟨_, slot.dest, rfl, hlen, hslot _ (by rw [sumStep, if_pos hint, leInt_congr hbytes])⟩
    · rw [if_neg (by rw [hfloat]; decide), if_pos hfloat]
      exact ⟨_, slot.dest, rfl, hlen, hslot _ (by rw [sumStep, if_neg (by rw [hfloat]; decide), leNat_congr hbytes])⟩
  · rw [if_neg hsum]
    have hread : (src.read rec).length = slot.col.len := by
      have hfit := hrec src (getCol_spec hsrc).1
      rw [ColMeta.read, List.length_take, List.length_drop]
      omega
    have hput : put (A ++ (slot.dest ++ B)) slot.col.offset (src.read rec) = A ++ (src.read rec ++ B) := by
      rw [put_append hA, List.append_assoc, List.drop_append_of_le_length (by omega), hread, ← hlen, List.drop_length]
      rfl
    have hdrop : (A ++ (slot.dest ++ B)).drop slot.col.offset = slot.dest ++ B := by
      rw [hA, List.drop_left]
    rw [show (rec.drop src.offset).take src.len = src.read rec from rfl, hput, hdrop]
    -- The slot is right if it is initialized now and holds what `aggExtreme_concat` says.
    have hslot : ∀ (acc : AggAcc D) (dest : Bytes), (ValueCol src.shape → acc.initialized = true ∧
        dest = if slot.acc.initialized = false ∨ slot.agg.funcType = .max ∧ 0 < aggCmp src.type src.len (src.read rec) slot.dest ∨
          slot.agg.funcType = .min ∧ aggCmp src.type src.len (src.read rec) slot.dest < 0 then src.read rec else slot.dest) →
        SlotOk prevCols (rows ++ [rec]) { slot with acc := acc, dest := dest } := by
      refine fun acc dest h => ⟨fun h => absurd h hcount, fun h => absurd h hsum, ?_⟩
      intro hf src' hsrc' hvalue
      cases hsrc.symm.trans hsrc'
      obtain ⟨hinit, hdest⟩ := h hvalue
      obtain ⟨hold, hbest⟩ := hok.extreme hf src hsrc hvalue
      obtain ⟨hsome, hnew⟩ := aggExtreme_concat rec hold hbest
      exact ⟨hinit.trans hsome.symm, hdest.trans hnew.symm⟩
    by_cases hinit : slot.acc.initialized = false
    · rw [if_pos hinit]
      exact ⟨_, src.read rec, rfl, hread, hslot _ _ fun _ => ⟨rfl, (if_pos (.inl hinit)).symm⟩⟩
    · rw [if_neg hinit]
      have hinit' : slot.acc.initialized = true := Bool.eq_true_of_not_eq_false hinit
      by_cases hbetter : slot.agg.funcType = .max ∧ 0 < aggCmp src.type src.len (rec.drop src.offset) (slot.dest ++ B) ∨
          slot.agg.funcType = .min ∧ aggCmp src.type src.len (rec.drop src.offset) (slot.dest ++ B) < 0
      · rw [if_pos hbetter]
        refine ⟨_, src.read rec, rfl, hread, hslot _ _ fun hvalue => ⟨hinit', ?_⟩⟩
        rw [aggCmp_read hvalue rec slot.dest B (hlen.trans hsrcLen)] at hbetter
        exact (if_pos (.inr hbetter)).symm
      · rw [if_neg hbetter]
        refine ⟨_, slot.dest, rfl, hlen, hslot _ _ fun hvalue => ⟨hinit', ?_⟩⟩
        rw [aggCmp_read hvalue rec slot.dest B (hlen.trans hsrcLen)] at hbetter
        exact (if_neg fun h => h.elim hinit hbetter).symm

theorem laid_callOk : ∀ {slots : List (Slot D)} {n : ℕ} {slot : Slot D}, Laid prevCols n slots → slot ∈ slots →
    CallOk prevCols slot.agg slot.col
  | first :: slots, n, slot, ⟨_, _, hcall, hlaid⟩, hmem => by
    rcases List.mem_cons.mp hmem with rfl | hmem
    · exact hcall
    · exact laid_callOk hlaid hmem

/-- What the slots are made of. -/
def Slot.call (slot : Slot D) : AggCall × ColMeta := (slot.agg, slot.col)

/-- **One row**: all slots are brought up to date. -/
theorem aggRow_eq (hrec : RecOk prevCols rec) : ∀ {slots : List (Slot D)} {A : Bytes}, Laid prevCols A.length slots →
    (∀ slot ∈ slots, SlotOk prevCols rows slot) →
    ∃ slots', aggRow prevCols rec (slots.map Slot.call) (slots.map Slot.acc) (A ++ slots.flatMap Slot.dest) =
        .ok (slots'.map Slot.acc, A ++ slots'.flatMap Slot.dest) ∧
      slots'.map Slot.call = slots.map Slot.call ∧ Laid prevCols A.length slots' ∧
      ∀ slot ∈ slots', SlotOk prevCols (rows ++ [rec]) slot
  | [], A, _, _ => ⟨[], rfl, rfl, trivial, fun slot hslot => by cases hslot⟩
  | slot :: slots, A, ⟨hoffset, hlen, hcall, hlaid⟩, hok => by
    obtain ⟨acc, dest, hstep, hlen', hslot⟩ :=
      aggStep_eq hrec hcall hlen (hok slot List.mem_cons_self) (B := slots.flatMap Slot.dest) hoffset
    have hlaid' : Laid prevCols (A ++ dest).length slots := by
      rw [List.length_append, hlen']
      exact hlaid
    obtain ⟨slots', hrow, hcalls, hlaid'', hok'⟩ := aggRow_eq hrec hlaid' fun s hs => hok s (List.mem_cons_of_mem _ hs)
    refine ⟨⟨slot.agg, slot.col, acc, dest⟩ :: slots', ?_, ?_, ⟨hoffset, hlen', hcall, ?_⟩, ?_⟩
    · rw [List.append_assoc] at hrow
      simp only [List.map_cons, List.flatMap_cons, aggRow, Slot.call, hstep, bind, Except.bind]
      rw [hrow, List.append_assoc]
    · rw [List.map_cons, List.map_cons, hcalls]
      rfl
    · rw [List.length_append, hlen'] at hlaid''
      exact hlaid''
    · rintro s (_ | ⟨_, hs⟩)
      · exact hslot
      · exact hok' s hs

/-- **All rows.** -/
theorem aggBody_foldlM_eq {aggs : List AggCall} {cols : List ColMeta} : ∀ {more rows : List Bytes} {slots : List (Slot D)},
    (∀ rec ∈ more, RecOk prevCols rec) → slots.map Slot.call = aggs.zip cols → Laid prevCols 0 slots →
    (∀ slot ∈ slots, SlotOk prevCols rows slot) →
    ∃ slots', (more.map some).foldlM (aggBody D prevCols aggs cols) (slots.map Slot.acc, slots.flatMap Slot.dest) =
        .ok (slots'.map Slot.acc, slots'.flatMap Slot.dest) ∧
      slots'.map Slot.call = aggs.zip cols ∧ Laid prevCols 0 slots' ∧ ∀ slot ∈ slots', SlotOk prevCols (rows ++ more) slot
  | [], rows, slots, _, hcalls, hlaid, hok => ⟨slots, rfl, hcalls, hlaid, by rwa [List.append_nil]⟩
  | rec :: more, rows, slots, hmore, hcalls, hlaid, hok => by
    obtain ⟨slots₁, hrow, hcalls₁, hlaid₁, hok₁⟩ := aggRow_eq (A := []) (hmore rec List.mem_cons_self) hlaid hok
    rw [List.nil_append, List.nil_append, hcalls] at hrow
    obtain ⟨slots', hfold, hcalls', hlaid', hok'⟩ := aggBody_foldlM_eq (fun r hr => hmore r (List.mem_cons_of_mem _ hr))
      (hcalls₁.trans hcalls) hlaid₁ hok₁
    refine ⟨slots', ?_, hcalls', hlaid', by rwa [List.append_assoc] at hok'⟩
    rw [List.map_cons, List.foldlM_cons, aggBody, hrow]
    exact hfold

/-- The bytes of a slot in the row that is returned. -/
def Slot.out (slot : Slot D) : Bytes :=
  match slot.agg.funcType with
  | .count => intBytes 4 slot.acc.count.toInt
  | .sum => if slot.col.type = .int then intBytes 4 (D.toInt slot.acc.sum) else leBytes 4 (D.toFloat slot.acc.sum)
  | .max | .min => slot.dest

theorem length_out {slot : Slot D} (hcall : CallOk prevCols slot.agg slot.col) (hlen : slot.dest.length = slot.col.len) :
    slot.out.length = slot.col.len := by
  rw [Slot.out]
  cases hf : slot.agg.funcType with
  | max | min => exact hlen
  | count => rw [intBytes, length_leBytes, hcall.count hf]
  | sum =>
    obtain ⟨src, hsrc, -, hsrcLen⟩ := hcall.found (by rw [hf]; decide)
    rw [hsrcLen, (hcall.sum hf src hsrc).1]
    simp only
    split <;> exact length_leBytes ..

/-- The last loop writes the slots of the counts and the sums. -/
theorem aggFinish_eq : ∀ {slots : List (Slot D)} {A : Bytes}, Laid prevCols A.length slots →
    aggFinish (slots.map Slot.call) (slots.map Slot.acc) (A ++ slots.flatMap Slot.dest) = A ++ slots.flatMap Slot.out
  | [], _, _ => rfl
  | slot :: slots, A, ⟨hoffset, hlen, hcall, hlaid⟩ => by
    have hout := length_out hcall hlen
    have hput : ∀ bytes : Bytes, bytes.length = slot.col.len →
        put (A ++ (slot.dest ++ slots.flatMap Slot.dest)) slot.col.offset bytes = (A ++ bytes) ++ slots.flatMap Slot.dest := by
      intro bytes hbytes
      rw [put_append hoffset, List.drop_append_of_le_length (by omega), hbytes, ← hlen, List.drop_length]
      rfl
    have hrest : aggFinish (slots.map Slot.call) (slots.map Slot.acc) ((A ++ slot.out) ++ slots.flatMap Slot.dest) =
        (A ++ slot.out) ++ slots.flatMap Slot.out := by
      refine aggFinish_eq ?_
      rw [List.length_append, hout]
      exact hlaid
    rw [List.flatMap_cons, List.flatMap_cons, ← List.append_assoc A slot.out, ← hrest]
    simp only [List.map_cons, aggFinish, Slot.call]
    refine congrArg (aggFinish _ _) ?_
    simp only [Slot.out] at hout ⊢
    cases hf : slot.agg.funcType with
    | max | min => exact (List.append_assoc ..).symm
    | count =>
      simp only [hf] at hout
      exact hput _ hout
    | sum =>
      simp only [hf] at hout ⊢
      split
      · rename_i hint
        rw [if_pos hint] at hout
        exact hput _ hout
      · rename_i hint
        rw [if_neg hint] at hout
        exact hput _ hout

/-- A slot is read where its column says. -/
theorem read_out : ∀ {slots : List (Slot D)} {A : Bytes} {slot : Slot D}, Laid prevCols A.length slots → slot ∈ slots →
    slot.col.read (A ++ slots.flatMap Slot.out) = slot.out
  | first :: slots, A, slot, ⟨hoffset, hlen, hcall, hlaid⟩, hmem => by
    have hout := length_out hcall hlen
    rcases List.mem_cons.mp hmem with rfl | hmem
    · rw [ColMeta.read, List.flatMap_cons, hoffset, List.drop_left, ← hout, List.take_left]
    · rw [List.flatMap_cons, ← List.append_assoc]
      refine read_out ?_ hmem
      rw [List.length_append, hout]
      exact hlaid

end Slots

/-! ### The row that is returned -/

section Result

variable {D : DoubleOps} {prevCols cols : List ColMeta} {aggs : List AggCall}

/-- `SUM` is of an `INT` or `FLOAT` column, which have 4 bytes. -/
def SumsOk (prevCols : List ColMeta) (aggs : List AggCall) : Prop :=
  ∀ agg ∈ aggs, agg.funcType = .sum → ∀ src, getCol prevCols agg.col = .ok src → src.len = 4 ∧ (src.type = .int ∨ src.type = .float)

/-- The slots before the first row. -/
def initSlots (D : DoubleOps) (aggs : List AggCall) (cols : List ColMeta) : List (Slot D) :=
  (aggs.zip cols).map fun x => ⟨x.1, x.2, ⟨false, D.zero, 0⟩, List.replicate x.2.len 0⟩

theorem call_initSlots (D : DoubleOps) (aggs : List AggCall) (cols : List ColMeta) :
    (initSlots D aggs cols).map Slot.call = aggs.zip cols := by
  rw [initSlots, List.map_map]
  exact List.map_id _

theorem callOk_of_aggShape {agg : AggCall} {type : ColType} {len : ℕ} (offset : ℕ) (h : aggShape prevCols agg = .ok (type, len))
    (hsum : agg.funcType = .sum → ∀ src, getCol prevCols agg.col = .ok src → src.len = 4 ∧ (src.type = .int ∨ src.type = .float)) :
    CallOk prevCols agg ⟨"", agg.aliasName, type, len, offset⟩ := by
  rw [aggShape] at h
  by_cases hcount : agg.funcType = .count
  · rw [if_pos hcount] at h
    cases h
    exact ⟨fun _ => rfl, fun hne => absurd hcount hne, hsum⟩
  · rw [if_neg hcount] at h
    rcases hsrc : getCol prevCols agg.col with e | src
    · rw [hsrc] at h
      cases h
    · rw [hsrc] at h
      cases h
      exact ⟨fun heq => absurd heq hcount, fun _ => ⟨src, hsrc, rfl, rfl⟩, hsum⟩

theorem length_aggCols : ∀ {aggs : List AggCall} {cols : List ColMeta} {offset : ℕ},
    aggCols prevCols offset aggs = .ok cols → cols.length = aggs.length
  | [], cols, offset, h => by
    cases h
    rfl
  | agg :: aggs, cols, offset, h => by
    rw [aggCols] at h
    rcases hshape : aggShape prevCols agg with e | ⟨type, len⟩
    · rw [hshape] at h
      cases h
    rcases hcols : aggCols prevCols (offset + len) aggs with e | cols'
    · simp only [hshape, bind, Except.bind, hcols] at h
      cases h
    simp only [hshape, bind, Except.bind, hcols] at h
    cases h
    rw [List.length_cons, List.length_cons, length_aggCols hcols]

/-- The constructor lays the slots one behind the other. -/
theorem initSlots_laid (D : DoubleOps) : ∀ {aggs : List AggCall} {cols : List ColMeta} {offset : ℕ},
    aggCols prevCols offset aggs = .ok cols → SumsOk prevCols aggs →
    Laid prevCols offset (initSlots D aggs cols) ∧
      ((initSlots D aggs cols).map Slot.acc, (initSlots D aggs cols).flatMap Slot.dest) = aggInit D aggs cols
  | [], cols, offset, h, _ => by
    cases h
    exact ⟨trivial, rfl⟩
  | agg :: aggs, cols, offset, h, hsum => by
    rw [aggCols] at h
    rcases hshape : aggShape prevCols agg with e | ⟨type, len⟩
    · rw [hshape] at h
      cases h
    rcases hcols : aggCols prevCols (offset + len) aggs with e | cols'
    · simp only [hshape, bind, Except.bind, hcols] at h
      cases h
    simp only [hshape, bind, Except.bind, hcols] at h
    cases h
    obtain ⟨hlaid, hinit⟩ := initSlots_laid D hcols fun agg hagg => hsum agg (List.mem_cons_of_mem _ hagg)
    obtain ⟨haccs, hresult⟩ := Prod.mk.inj hinit
    have hcall := callOk_of_aggShape offset hshape (hsum agg List.mem_cons_self)
    refine ⟨⟨rfl, List.length_replicate, hcall, hlaid⟩, Prod.ext ?_ ?_⟩
    · exact congrArg (_ :: ·) haccs
    · have hsplit : List.replicate (len + aggLen cols') (0 : UInt8) = List.replicate len 0 ++ List.replicate (aggLen cols') 0 :=
        List.replicate_add _ _ _
      exact (congrArg (List.replicate len 0 ++ ·) hresult).trans hsplit.symm

/-- The row that is made of these rows. -/
def aggResult (D : DoubleOps) (prevCols : List ColMeta) (aggs : List AggCall) (cols : List ColMeta) (rows : List Bytes) :
    Except RMDBError Bytes := do
  let (accs, result) ← (rows.map some).foldlM (aggBody D prevCols aggs cols) (aggInit D aggs cols)
  .ok (aggFinish (aggs.zip cols) accs result)

/-- **An aggregate returns one row.** -/
theorem enumerates_aggregate {rows : List Bytes} {res : Bytes} (hres : aggResult D prevCols aggs cols rows = .ok res) {S : Type}
    {prev : Executor S} {I : S → Prop} (hprev : prev.Enumerates I rows) {rounds : ℕ} (hrounds : rows.length < rounds) :
    (aggregate D prevCols prev aggs cols rounds).Enumerates (fun s => I s.prev) [res] where
  start s hs := by
    rcases hfold : (rows.map some).foldlM (aggBody D prevCols aggs cols) (aggInit D aggs cols) with e | ⟨accs, result⟩
    · rw [aggResult, hfold] at hres
      cases hres
    · rw [aggResult, hfold] at hres
      obtain ⟨s₁, s', hstart, hloop, hs'⟩ := hprev.start_fold_eq .assertion hs (by rwa [List.length_map]) hfold
      refine ⟨⟨s', some (aggFinish (aggs.zip cols) accs result), false, false⟩, ?_, hs', ?_⟩
      · simp only [aggregate, aggBegin, hstart, hloop, bind, Except.bind]
      · refine Cursor.yields_cons.mpr ⟨rfl, ?_, _, rfl, Cursor.yields_nil.mpr rfl⟩
        exact congrArg (fun r => Except.ok (some r)) (Except.ok.inj hres)
  next s s' hs hgo hnext := by
    cases hnext
    exact hs

theorem initSlots_ok (D : DoubleOps) (hlaid : Laid prevCols 0 (initSlots D aggs cols)) :
    ∀ slot ∈ initSlots D aggs cols, SlotOk prevCols [] slot := by
  intro slot hslot
  have hcall := laid_callOk hlaid hslot
  obtain ⟨x, -, rfl⟩ := List.mem_map.mp hslot
  refine ⟨fun _ => rfl, fun _ _ _ => rfl, fun hf src hsrc _ => ⟨rfl, ?_⟩⟩
  obtain ⟨src', hsrc', -, hlen⟩ := hcall.found (by rcases hf with hf | hf <;> rw [hf] <;> decide)
  cases hsrc.symm.trans hsrc'
  rw [show x.2.len = src.len from hlen]
  rfl

/-- What a slot writes is the value of its call. -/
theorem SlotOk.out_eq {rows : List Bytes} {slot : Slot D} (hok : SlotOk prevCols rows slot) (hcall : CallOk prevCols slot.agg slot.col)
    (hvalue : ∀ src, getCol prevCols slot.agg.col = .ok src → ValueCol src.shape) :
    slot.out = aggValue D prevCols rows slot.agg := by
  rw [Slot.out, aggValue]
  by_cases hcount : slot.agg.funcType = .count
  · rw [if_pos hcount, hcount, ← hok.count hcount]
  · obtain ⟨src, hsrc, htype, -⟩ := hcall.found hcount
    rw [if_neg hcount, hsrc]
    cases hf : slot.agg.funcType with
    | count => exact absurd hf hcount
    | sum =>
      simp only [if_true, htype, hok.sum hf src hsrc]
    | max | min =>
      have hbest := (hok.extreme (by simp only [hf, true_or, or_true]) src hsrc (hvalue src hsrc)).2
      rw [hf] at hbest
      simpa only [reduceCtorEq, if_false] using hbest

/-- **The row that is made**: it is laid out as the constructor says, and every slot holds what it should. -/
theorem exists_slots (D : DoubleOps) (hcols : aggCols prevCols 0 aggs = .ok cols) (hsum : SumsOk prevCols aggs)
    {rows : List Bytes} (hrows : ∀ rec ∈ rows, RecOk prevCols rec) :
    ∃ slots : List (Slot D), aggResult D prevCols aggs cols rows = .ok (slots.flatMap Slot.out) ∧
      slots.map Slot.call = aggs.zip cols ∧ Laid prevCols 0 slots ∧ ∀ slot ∈ slots, SlotOk prevCols rows slot := by
  obtain ⟨hlaid, hinit⟩ := initSlots_laid D hcols hsum
  obtain ⟨slots, hfold, hcalls, hlaid', hok⟩ :=
    aggBody_foldlM_eq hrows (call_initSlots D aggs cols) hlaid (initSlots_ok D hlaid)
  rw [hinit] at hfold
  have hfinish := aggFinish_eq (A := []) hlaid'
  rw [hcalls, List.nil_append, List.nil_append] at hfinish
  refine ⟨slots, ?_, hcalls, hlaid', hok⟩
  rw [aggResult, hfold]
  exact congrArg Except.ok hfinish

/-- The row is made, and the values of `MAX` and `MIN` are extreme in their own order. -/
theorem exists_aggResult (D : DoubleOps) (hcols : aggCols prevCols 0 aggs = .ok cols) (hsum : SumsOk prevCols aggs)
    {rows : List Bytes} (hrows : ∀ rec ∈ rows, RecOk prevCols rec) :
    ∃ res, aggResult D prevCols aggs cols rows = .ok res ∧
      ∀ agg col src, (agg, col) ∈ aggs.zip cols → agg.funcType = .max ∨ agg.funcType = .min →
        getCol prevCols agg.col = .ok src → KeyCol src.shape → rows ≠ [] →
        Extreme agg.funcType (aggCmp src.type src.len) (rows.map src.read) (col.read res) := by
  obtain ⟨slots, hres, hcalls, hlaid, hok⟩ := exists_slots D hcols hsum hrows
  refine ⟨_, hres, ?_⟩
  intro agg col src hmem hf hsrc hkey hne
  rw [← hcalls] at hmem
  obtain ⟨slot, hslot, hcall⟩ := List.mem_map.mp hmem
  obtain ⟨rfl, rfl⟩ := Prod.mk.inj hcall
  have hread := read_out (A := []) hlaid hslot
  have hout : slot.out = slot.dest := by
    rw [Slot.out]
    rcases hf with hf | hf <;> rw [hf]
  obtain ⟨v, hv, hextreme⟩ : ∃ v, kept slot.agg.funcType (aggCmp src.type src.len) (rows.map src.read) = some v ∧
      Extreme slot.agg.funcType (aggCmp src.type src.len) (rows.map src.read) v :=
    extreme_kept (threeWay_aggCmp hkey) fun hnil => hne (List.map_eq_nil_iff.mp hnil)
  rw [List.nil_append] at hread
  rw [hread, hout, ((hok slot hslot).extreme hf src hsrc (.inl hkey)).2, aggExtreme, hv]
  exact hextreme

/-- **The row that is made is the values of the calls**, one behind the other. -/
theorem aggResult_eq (D : DoubleOps) (hcols : aggCols prevCols 0 aggs = .ok cols) (hsum : SumsOk prevCols aggs)
    (hvalue : ∀ col ∈ prevCols, ValueCol col.shape) {rows : List Bytes} (hrows : ∀ rec ∈ rows, RecOk prevCols rec) :
    aggResult D prevCols aggs cols rows = .ok (aggs.flatMap (aggValue D prevCols rows)) := by
  obtain ⟨slots, hres, hcalls, hlaid, hok⟩ := exists_slots D hcols hsum hrows
  have hagg : slots.map Slot.agg = aggs := by
    have hfst := congrArg (List.map Prod.fst) hcalls
    rw [List.map_map, List.map_fst_zip (le_of_eq (length_aggCols hcols).symm)] at hfst
    exact hfst
  rw [hres, ← hagg, List.flatMap_map]
  refine congrArg Except.ok (List.flatMap_congr ?_)
  intro slot hslot
  exact (hok slot hslot).out_eq (laid_callOk hlaid hslot) fun src hsrc => hvalue src (getCol_spec hsrc).1

theorem length_aggExtreme {funcType : AggFuncType} {src : ColMeta} {rows : List Bytes} (hsrc : src ∈ prevCols)
    (hrows : ∀ rec ∈ rows, RecOk prevCols rec) : (aggExtreme funcType src rows).length = src.len := by
  rw [aggExtreme]
  rcases hkept : kept funcType (aggCmp src.type src.len) (rows.map src.read) with _ | v
  · exact List.length_replicate
  · obtain ⟨rec, hrec, rfl⟩ := List.mem_map.mp (mem_of_kept hkept)
    have hfit := hrows rec hrec src hsrc
    rw [Option.getD_some, ColMeta.read, List.length_take, List.length_drop]
    omega

/-- The value of a call has the same length over all rows. -/
theorem length_aggValue_eq (D : DoubleOps) {rows rows' : List Bytes} (agg : AggCall) (hrows : ∀ rec ∈ rows, RecOk prevCols rec)
    (hrows' : ∀ rec ∈ rows', RecOk prevCols rec) :
    (aggValue D prevCols rows agg).length = (aggValue D prevCols rows' agg).length := by
  rw [aggValue, aggValue]
  split
  · rw [intBytes, intBytes, length_leBytes, length_leBytes]
  · rcases hsrc : getCol prevCols agg.col with e | src
    · rfl
    · simp only
      split
      · split <;> simp only [intBytes, length_leBytes]
      · rw [length_aggExtreme (getCol_spec hsrc).1 hrows, length_aggExtreme (getCol_spec hsrc).1 hrows']

theorem flatMap_eq_flatMap_iff {α β : Type} {f g : α → List β} : ∀ {l : List α}, (∀ x ∈ l, (f x).length = (g x).length) →
    (l.flatMap f = l.flatMap g ↔ ∀ x ∈ l, f x = g x)
  | [], _ => iff_of_true rfl fun x hx => by cases hx
  | x :: l, hlen => by
    rw [List.flatMap_cons, List.flatMap_cons, List.forall_mem_cons,
      ← flatMap_eq_flatMap_iff fun y hy => hlen y (List.mem_cons_of_mem _ hy)]
    exact ⟨fun h => List.append_inj h (hlen x List.mem_cons_self), fun h => by rw [h.1, h.2]⟩

/-- **The same row is made of two lists of rows** if and only if every call has the same value over them. -/
theorem aggResult_eq_iff (D : DoubleOps) (hcols : aggCols prevCols 0 aggs = .ok cols) (hsum : SumsOk prevCols aggs)
    (hvalue : ∀ col ∈ prevCols, ValueCol col.shape) {rows rows' : List Bytes} (hrows : ∀ rec ∈ rows, RecOk prevCols rec)
    (hrows' : ∀ rec ∈ rows', RecOk prevCols rec) :
    aggResult D prevCols aggs cols rows = aggResult D prevCols aggs cols rows' ↔
      ∀ agg ∈ aggs, aggValue D prevCols rows agg = aggValue D prevCols rows' agg := by
  rw [aggResult_eq D hcols hsum hvalue hrows, aggResult_eq D hcols hsum hvalue hrows', Except.ok.injEq]
  exact flatMap_eq_flatMap_iff fun agg _ => length_aggValue_eq D agg hrows hrows'

/-- Over every child that enumerates the rows, the aggregate returns one row, this one. -/
def AggReturns (D : DoubleOps) (prevCols : List ColMeta) (aggs : List AggCall) (cols : List ColMeta) (rows : List Bytes)
    (res : Bytes) : Prop :=
  ∀ {S : Type} {prev : Executor S} {I : S → Prop}, prev.Enumerates I rows → ∀ rounds > rows.length + 1, ∀ s, I s.prev →
    (aggregate D prevCols prev aggs cols rounds).all .assertion rounds s = .ok [some res]

theorem aggReturns_of_aggResult {rows : List Bytes} {res : Bytes} (hres : aggResult D prevCols aggs cols rows = .ok res) :
    AggReturns D prevCols aggs cols rows res := by
  intro S prev I hprev rounds hrounds s hs
  have henum := enumerates_aggregate hres hprev (Nat.lt_of_succ_lt hrounds)
  exact henum.all_eq hs (Nat.lt_of_le_of_lt (Nat.succ_le_succ (Nat.zero_le _)) hrounds)

/-- There is one such row only. -/
theorem AggReturns.unique {rows : List Bytes} {res res' : Bytes} (h : AggReturns D prevCols aggs cols rows res)
    (h' : AggReturns D prevCols aggs cols rows res') : res = res' := by
  have hlist := Restart.enumerates_ofList (E := RMDBError) (rows.map some) none
  have h₁ := h hlist (rows.length + 2) (Nat.lt_succ_self _) ⟨0, none, false, false⟩ trivial
  have h₂ := h' hlist (rows.length + 2) (Nat.lt_succ_self _) ⟨0, none, false, false⟩ trivial
  cases h₁.symm.trans h₂
  rfl

/-- The value of a call is what its column should have: the greatest or least one in the order of conditions, `ORDER BY` and
indexes, whatever the order of the rows. -/
def ExtremeReturned (D : DoubleOps) (prevCols : List ColMeta) (aggs : List AggCall) (cols : List ColMeta) (rows : List Bytes)
    (agg : AggCall) (col src : ColMeta) : Prop :=
  ∃ v, Extreme agg.funcType (compareCol src.type src.len) (rows.map src.read) v ∧
    ∀ rows', rows'.Perm rows → ∃ res, AggReturns D prevCols aggs cols rows' res ∧ col.read res = v

/-- Values of a column that is no `FLOAT` are the same bytes if they compare equal. -/
theorem eq_of_aggCmp_eq_zero {src : ColMeta} (hkey : KeyCol src.shape) {v w : Bytes} (hv : v.length = src.len)
    (hw : w.length = src.len) (hzero : aggCmp src.type src.len v w = 0) : v = w := by
  rw [aggCmp_eq] at hzero
  have htake : v.take src.len = w.take src.len := (keyCol_cmpType hkey).take_eq (le_of_eq hv.symm) (le_of_eq hw.symm) hzero
  rwa [List.take_of_length_le (le_of_eq hv), List.take_of_length_le (le_of_eq hw)] at htake

/-- Two extreme values of a column are the same bytes. -/
theorem extreme_eq {funcType : AggFuncType} (hf : funcType = .max ∨ funcType = .min) {src : ColMeta} (hkey : KeyCol src.shape)
    {rows : List Bytes} (hlen : ∀ w ∈ rows.map src.read, w.length = src.len) {v w : Bytes}
    (hv : Extreme funcType (aggCmp src.type src.len) (rows.map src.read) v)
    (hw : Extreme funcType (aggCmp src.type src.len) (rows.map src.read) w) : v = w :=
  eq_of_aggCmp_eq_zero hkey (hlen v hv.1) (hlen w hw.1) (hv.unique hf (threeWay_aggCmp hkey) hw)

/-- **When `MAX` and `MIN` are right**: on `INT` and `CHAR` columns, and on `BIGINT` and `DATETIME` columns if the value that
is greatest or least as an integer is so byte by byte, too. -/
theorem max_min_iff (D : DoubleOps) (hcols : aggCols prevCols 0 aggs = .ok cols) (hsum : SumsOk prevCols aggs)
    {rows : List Bytes} (hrows : ∀ rec ∈ rows, RecOk prevCols rec) (hne : rows ≠ []) {agg : AggCall} {col src : ColMeta}
    (hmem : (agg, col) ∈ aggs.zip cols) (hf : agg.funcType = .max ∨ agg.funcType = .min)
    (hsrc : getCol prevCols agg.col = .ok src) (hkey : KeyCol src.shape) :
    ExtremeReturned D prevCols aggs cols rows agg col src ↔
      src.type = .int ∨ src.type = .string ∨
      ∃ v, Extreme agg.funcType (compareCol src.type src.len) (rows.map src.read) v ∧
        Extreme agg.funcType (memcmp src.len) (rows.map src.read) v := by
  -- What is returned for the rows in another order is extreme in the order of the aggregate.
  have hreturned : ∀ rows', rows'.Perm rows → ∃ res, AggReturns D prevCols aggs cols rows' res ∧
      Extreme agg.funcType (aggCmp src.type src.len) (rows.map src.read) (col.read res) := by
    intro rows' hperm
    obtain ⟨res, hres, hextreme⟩ := exists_aggResult D hcols hsum fun rec hrec => hrows rec (hperm.mem_iff.mp hrec)
    have hret : AggReturns D prevCols aggs cols rows' res := aggReturns_of_aggResult hres
    have hne' : rows' ≠ [] := fun hnil => hne (List.nil_perm.mp (hnil ▸ hperm))
    exact ⟨res, hret, (hextreme agg col src hmem hf hsrc hkey hne').perm (hperm.map src.read).symm⟩
  have hlen : ∀ w ∈ rows.map src.read, w.length = src.len := by
    intro w hw
    obtain ⟨rec, hrec, rfl⟩ := List.mem_map.mp hw
    have hfit := hrows rec hrec src (getCol_spec hsrc).1
    rw [ColMeta.read, List.length_take, List.length_drop]
    omega
  constructor
  · rintro ⟨v, hv, hall⟩
    obtain ⟨res, hret, rfl⟩ := hall rows (List.Perm.refl rows)
    obtain ⟨res', hret', hextreme⟩ := hreturned rows (List.Perm.refl rows)
    rw [hret'.unique hret] at hextreme
    cases htype : src.type with
    | int => exact .inl rfl
    | string => exact .inr (.inl rfl)
    | float =>
      rw [ColMeta.shape, htype] at hkey
      exact hkey.elim
    | bigint | datetime =>
      rw [htype] at hv hextreme
      exact .inr (.inr ⟨_, hv, hextreme⟩)
  · intro hcond
    obtain ⟨res, -, hextreme⟩ := hreturned rows (List.Perm.refl rows)
    refine ⟨col.read res, ?_, ?_⟩
    · rcases hcond with htype | htype | ⟨v, hv, hv'⟩
      · rw [htype] at hextreme ⊢
        exact hextreme
      · rw [htype] at hextreme ⊢
        exact hextreme
      · cases htype : src.type with
        | int | string =>
          rw [htype] at hextreme
          exact hextreme
        | float =>
          rw [ColMeta.shape, htype] at hkey
          exact hkey.elim
        | bigint | datetime =>
          have hv'' : Extreme agg.funcType (aggCmp src.type src.len) (rows.map src.read) v := by
            rw [htype]
            exact hv'
          rw [extreme_eq hf hkey hlen hextreme hv'', ← htype]
          exact hv
    · intro rows' hperm
      obtain ⟨res', hret', hextreme'⟩ := hreturned rows' hperm
      exact ⟨res', hret', extreme_eq hf hkey hlen hextreme' hextreme⟩

end Result

/-- `MAX` of an `INT` column. -/
theorem max_min_iff_int :
    ExtremeReturned ⟨Unit, (), fun _ _ => (), fun _ _ => (), fun _ => 0, fun _ => 0⟩ [⟨"t", "a", .int, 4, 0⟩]
        [⟨.max, ⟨"t", "a"⟩, "m"⟩] [⟨"", "m", .int, 4, 0⟩] [intBytes 4 (-1), intBytes 4 1] ⟨.max, ⟨"t", "a"⟩, "m"⟩
        ⟨"", "m", .int, 4, 0⟩ ⟨"t", "a", .int, 4, 0⟩ ↔
      ColType.int = .int ∨ ColType.int = .string ∨
      ∃ v, Extreme .max (compareCol .int 4) [intBytes 4 (-1), intBytes 4 1] v ∧
        Extreme .max (memcmp 4) [intBytes 4 (-1), intBytes 4 1] v :=
  max_min_iff _ rfl (fun agg hagg hsum => by
      obtain rfl := List.mem_singleton.mp hagg
      cases hsum)
    (by decide) (by decide)
    (List.mem_singleton_self ((⟨.max, ⟨"t", "a"⟩, "m"⟩ : AggCall), (⟨"", "m", .int, 4, 0⟩ : ColMeta))) (.inl rfl) rfl (by decide)

/-- `MAX` of a `BIGINT` column: of 1 and 256 it is 1, which has the greater first byte. -/
theorem not_max : ¬ ∀ (D : DoubleOps) (prevCols : List ColMeta) (aggs : List AggCall) (cols : List ColMeta) (rows : List Bytes)
    (agg : AggCall) (col src : ColMeta), aggCols prevCols 0 aggs = .ok cols → SumsOk prevCols aggs →
    (∀ rec ∈ rows, RecOk prevCols rec) → rows ≠ [] → (agg, col) ∈ aggs.zip cols →
    agg.funcType = .max ∨ agg.funcType = .min → getCol prevCols agg.col = .ok src → KeyCol src.shape →
    ExtremeReturned D prevCols aggs cols rows agg col src := by
  intro hall
  obtain ⟨v, hv, hret⟩ := hall ⟨Unit, (), fun _ _ => (), fun _ _ => (), fun _ => 0, fun _ => 0⟩ [⟨"t", "a", .bigint, 8, 0⟩]
    [⟨.max, ⟨"t", "a"⟩, "m"⟩] [⟨"", "m", .bigint, 8, 0⟩] [intBytes 8 1, intBytes 8 256] ⟨.max, ⟨"t", "a"⟩, "m"⟩
    ⟨"", "m", .bigint, 8, 0⟩ ⟨"t", "a", .bigint, 8, 0⟩ rfl (fun agg hagg hsum => by
      obtain rfl := List.mem_singleton.mp hagg
      cases hsum)
    (by decide) (by decide) (List.mem_singleton_self _) (.inl rfl) rfl (by decide)
  obtain ⟨res, hres, rfl⟩ := hret _ (List.Perm.refl _)
  have hrun : (.ok [some (intBytes 8 1)] : Except RMDBError _) = .ok [some res] :=
    hres (Restart.enumerates_ofList _ none) 4 (by decide) ⟨0, none, false, false⟩ trivial
  obtain rfl := Option.some.inj (List.cons.inj (Except.ok.inj hrun)).1
  exact absurd ((hv.2 (intBytes 8 256) (by decide)).1 rfl) (by decide)

end Rmdb.Execution
