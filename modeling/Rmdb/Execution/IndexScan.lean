import Rmdb.Execution.Scan
import Rmdb.Optimizer.IndexChoice
import Mathlib.Tactic.NormNum

/-!
# Index scans and sequential scans

An index scan and a sequential scan of the same table under the same conditions are to
return the same rids. The keys of an index scan bound the records that satisfy the
conditions (`InRange`), so between the two keys none is missed; what can go wrong is the
walk along the leaves. The conditions may contradict each other, so that the lower key
lies above the upper one: if a stored key lies strictly between them, the scan starts
behind its end (`BeyondBoth`). And the walk may step onto an emptied leaf (`GapInRange`).
A third case needs a `FLOAT` column in the index behind those that the conditions bound:
the scan keys run from the smallest to the largest finite number there, so a record with
an infinite one can be left out (`InfiniteFloat`).

The main result, `indexScan_iff`, says that the two scans agree exactly when none of the
three is the case.
-/

namespace Rmdb.Index

/-! ### Values and what follows them -/

theorem append_lt_append_iff : ∀ {x y : List ℤ} (a b : List ℤ), x.length = y.length →
    (x ++ a < y ++ b ↔ x < y ∨ x = y ∧ a < b)
  | [], [], _, _, _ => by simp
  | _ :: _, [], _, _, h => by cases h
  | [], _ :: _, _, _, h => by cases h
  | u :: x, v :: y, a, b, h => by
    rw [List.cons_append, List.cons_append, List.cons_lt_cons_iff, List.cons_lt_cons_iff,
      append_lt_append_iff a b (Nat.succ.inj h), List.cons.injEq]
    tauto

theorem leNat_append {w : ℕ} {x : Bytes} (y : Bytes) (h : w ≤ x.length) : leNat w (x ++ y) = leNat w x := by
  induction w generalizing x with
  | zero => rfl
  | succ w ih =>
    match x, h with
    | b :: x, h => simp [leNat, ih (Nat.le_of_succ_le_succ h)]

theorem charVal_append {n : ℕ} {x : Bytes} (y : Bytes) (h : n ≤ x.length) : charVal n (x ++ y) = charVal n x := by
  induction n generalizing x with
  | zero => rfl
  | succ n ih =>
    match x, h with
    | b :: x, h => simp [charVal, ih (Nat.le_of_succ_le_succ h)]

/-- The value of a column depends on its own bytes. -/
theorem colVal_append {c : ColMeta} (hc : c.LenOk) {x : Bytes} (y : Bytes) (hx : x.length = c.len) :
    colVal c.shape (x ++ y) = colVal c.shape x := by
  unfold ColMeta.LenOk at hc
  unfold colVal ColMeta.shape leInt
  cases ht : c.type <;> simp only [ht] at hc ⊢
  case int => rw [leNat_append y (by omega)]
  case float => rw [leNat_append y (by omega)]
  case bigint => rw [leNat_append y (by omega)]
  case datetime => rw [leNat_append y (by omega)]
  case string => rw [charVal_append y (by omega)]

theorem keyVal_cons {c : ColMeta} (hc : c.LenOk) (cols : List (ColType × ℕ)) {x : Bytes} (y : Bytes)
    (hx : x.length = c.len) : keyVal (c.shape :: cols) (x ++ y) = colVal c.shape x ++ keyVal cols y := by
  have hdrop : (x ++ y).drop c.shape.2 = y := by simp [ColMeta.shape, ← hx]
  rw [keyVal, colVal_append hc y hx, hdrop]

/-- The value of a record's key is made of the values of its columns. -/
theorem keyVal_flatMap {cols : List ColMeta} {rec : Bytes} (hcols : ∀ c ∈ cols, c.LenOk ∧ c.offset + c.len ≤ rec.length) :
    keyVal (cols.map (·.shape)) (cols.flatMap (·.read rec)) = cols.flatMap fun c => colVal c.shape (c.read rec) := by
  induction cols with
  | nil => rfl
  | cons c cols ih =>
    have hc := hcols c List.mem_cons_self
    rw [List.map_cons, List.flatMap_cons, List.flatMap_cons, keyVal_cons hc.1 _ _ (ColMeta.length_read hc.2),
      ih fun c hc => hcols c (List.mem_cons_of_mem _ hc)]

/-! ### The smallest and the largest values -/

theorem leInt_bounds {w : ℕ} (hw : 0 < w) (bs : Bytes) : -2 ^ (8 * w - 1) ≤ leInt w bs ∧ leInt w bs < 2 ^ (8 * w - 1) := by
  have h := leNat_lt w bs
  have h2 : (2 : ℕ) ^ (8 * w) = 2 * 2 ^ (8 * w - 1) := by
    rw [← Nat.pow_succ']
    congr 1
    omega
  have h3 : ((2 ^ (8 * w - 1) : ℕ) : ℤ) = 2 ^ (8 * w - 1) := by push_cast; rfl
  have h4 : ((2 ^ (8 * w) : ℕ) : ℤ) = 2 ^ (8 * w) := by push_cast; rfl
  unfold leInt
  split_ifs <;> omega

end Rmdb.Index

namespace Rmdb.Execution

open Lib Index Record

theorem length_fillMin {c : ColMeta} (hc : c.LenOk) : (fillMin c).length = c.len := by
  unfold ColMeta.LenOk at hc
  unfold fillMin intBytes
  cases ht : c.type <;> simp [ht] at hc ⊢ <;> simp [length_leBytes, hc]

theorem length_fillMax {c : ColMeta} (hc : c.LenOk) : (fillMax c).length = c.len := by
  unfold ColMeta.LenOk at hc
  unfold fillMax intBytes
  cases ht : c.type <;> simp [ht] at hc ⊢ <;> simp [length_leBytes, hc]

theorem not_charVal_lt_zero (n : ℕ) (bs : Bytes) : ¬ charVal n bs < charVal n (List.replicate n 0) := by
  induction n generalizing bs with
  | zero => simp [charVal]
  | succ n ih =>
    simp only [charVal, List.replicate_succ, List.headD_cons, List.tail_cons, List.cons_lt_cons_iff, not_or, not_and]
    exact ⟨by simp, fun _ => ih _⟩

theorem not_charVal_gt_max (n : ℕ) (bs : Bytes) : ¬ charVal n (List.replicate n 255) < charVal n bs := by
  induction n generalizing bs with
  | zero => simp [charVal]
  | succ n ih =>
    simp only [charVal, List.replicate_succ, List.headD_cons, List.tail_cons, List.cons_lt_cons_iff, not_or, not_and]
    refine ⟨?_, fun _ => ih _⟩
    have := (bs.headD 0).toNat_lt
    have h255 : (255 : UInt8).toNat = 255 := rfl
    rw [h255]
    omega

theorem singleton_lt_iff (x y : ℤ) : [x] < [y] ↔ x < y := by
  simp [List.cons_lt_cons_iff]

/-- Only `-inf` is below the smallest value of its type. -/
theorem colVal_lt_fillMin {c : ColMeta} {bs : Bytes} (hnan : ColNoNaN c.shape bs) :
    colVal c.shape bs < colVal c.shape (fillMin c) ↔ c.type = .float ∧ leNat 4 bs = 0xff800000 := by
  unfold colVal ColMeta.shape fillMin
  unfold ColNoNaN ColMeta.shape at hnan
  have h8 : leInt 8 (intBytes 8 (-9223372036854775808)) = -9223372036854775808 := by decide
  have hle8 := (leInt_bounds (w := 8) (by omega) bs).1
  cases ht : c.type with
  | int =>
    have h4 : leInt 4 (intBytes 4 (-2147483648)) = -2147483648 := by decide
    have hle4 := (leInt_bounds (w := 4) (by omega) bs).1
    simpa [singleton_lt_iff, h4] using hle4
  | float =>
    have hn := hnan ht
    have hlt := leNat_lt 4 bs
    have h4 : leNat 4 (leBytes 4 0xff7fffff) = 0xff7fffff := by decide
    unfold isNaN32 at hn
    simp only [singleton_lt_iff, h4, floatRank]
    simp only [decide_eq_false_iff_not, not_lt] at hn
    simp only [true_and]
    split_ifs <;> omega
  | bigint => simpa [singleton_lt_iff, h8] using hle8
  | datetime => simpa [singleton_lt_iff, h8] using hle8
  | string => simpa using not_lt.mp (not_charVal_lt_zero c.len bs)

/-- Only `inf` is above the largest value of its type. -/
theorem fillMax_lt_colVal {c : ColMeta} {bs : Bytes} (hnan : ColNoNaN c.shape bs) :
    colVal c.shape (fillMax c) < colVal c.shape bs ↔ c.type = .float ∧ leNat 4 bs = 0x7f800000 := by
  unfold colVal ColMeta.shape fillMax
  unfold ColNoNaN ColMeta.shape at hnan
  have h8 : leInt 8 (intBytes 8 9223372036854775807) = 9223372036854775807 := by decide
  have hle8 : leInt 8 bs ≤ 9223372036854775807 := by
    have := (leInt_bounds (w := 8) (by omega) bs).2
    norm_num at this
    omega
  cases ht : c.type with
  | int =>
    have h4 : leInt 4 (intBytes 4 2147483647) = 2147483647 := by decide
    have hle4 : leInt 4 bs ≤ 2147483647 := by
      have := (leInt_bounds (w := 4) (by omega) bs).2
      norm_num at this
      omega
    simpa [singleton_lt_iff, h4] using hle4
  | float =>
    have hn := hnan ht
    have hlt := leNat_lt 4 bs
    have h4 : leNat 4 (leBytes 4 0x7f7fffff) = 0x7f7fffff := by decide
    unfold isNaN32 at hn
    simp only [singleton_lt_iff, h4, floatRank]
    simp only [decide_eq_false_iff_not, not_lt] at hn
    simp only [true_and]
    split_ifs <;> omega
  | bigint => simpa [singleton_lt_iff, h8] using hle8
  | datetime => simpa [singleton_lt_iff, h8] using hle8
  | string => simpa using not_lt.mp (not_charVal_gt_max c.len bs)

theorem noNaN_fillMin (c : ColMeta) : ColNoNaN c.shape (fillMin c) := by
  intro (ht : c.type = .float)
  simp only [fillMin, ht]
  decide

theorem noNaN_fillMax (c : ColMeta) : ColNoNaN c.shape (fillMax c) := by
  intro (ht : c.type = .float)
  simp only [fillMax, ht]
  decide

/-! ### Records and the conditions on the columns of an index -/

/-- The index columns of the record are below all finite ones: `-inf`, behind columns at their smallest value. -/
def BelowMin (rec : Bytes) : List ColMeta → Prop
  | [] => False
  | c :: cols => (c.type = .float ∧ leNat 4 (c.read rec) = 0xff800000) ∨
      (compareCol c.type c.len (c.read rec) (fillMin c) = 0 ∧ BelowMin rec cols)

/-- The index columns of the record are above all finite ones: `inf`, behind columns at their largest value. -/
def AboveMax (rec : Bytes) : List ColMeta → Prop
  | [] => False
  | c :: cols => (c.type = .float ∧ leNat 4 (c.read rec) = 0x7f800000) ∨
      (compareCol c.type c.len (c.read rec) (fillMax c) = 0 ∧ AboveMax rec cols)

/-- How the record's column compares with the value of a condition. -/
def cmpCond (rec : Bytes) (c : ColMeta) (cond : Condition) : ℤ := compareCol c.type c.len (c.read rec) (rawOf c cond)

/-- The record is on the lower bound of the first of the columns, and below all finite ones in the others. -/
def AtMin (conds : List Condition) (rec : Bytes) : List ColMeta → Prop
  | [] => False
  | c :: cols =>
    match (pickConds conds c.name).lower with
    | some lower => cmpCond rec c lower = 0 ∧ BelowMin rec cols
    | none => BelowMin rec (c :: cols)

/-- The record is on the upper bound of the first of the columns, and above all finite ones in the others. -/
def AtMax (conds : List Condition) (rec : Bytes) : List ColMeta → Prop
  | [] => False
  | c :: cols =>
    match (pickConds conds c.name).upper with
    | some upper => cmpCond rec c upper = 0 ∧ AboveMax rec cols
    | none => AboveMax rec (c :: cols)

/-- The record is below the lower bound of the first of the columns. -/
def UnderLower (conds : List Condition) (rec : Bytes) : List ColMeta → Prop
  | [] => False
  | c :: _ => ∃ lower, (pickConds conds c.name).lower = some lower ∧ cmpCond rec c lower < 0

/-- The record is above the upper bound of the first of the columns. -/
def OverUpper (conds : List Condition) (rec : Bytes) : List ColMeta → Prop
  | [] => False
  | c :: _ => ∃ upper, (pickConds conds c.name).upper = some upper ∧ 0 < cmpCond rec c upper

/-- The record meets the equalities for the first columns, and `P` is true of the columns behind them. -/
def OnPrefix (conds : List Condition) (rec : Bytes) (P : List ColMeta → Prop) : List ColMeta → Prop
  | [] => P []
  | c :: cols =>
    match (pickConds conds c.name).eq with
    | some eq => cmpCond rec c eq = 0 ∧ OnPrefix conds rec P cols
    | none => P (c :: cols)

/-- The record lies before the lower end of the scan. -/
def Before (conds : List Condition) (rec : Bytes) (cols : List ColMeta) : Prop :=
  UnderLower conds rec cols ∨ AtMin conds rec cols

/-- The record lies behind the upper end of the scan. -/
def After (conds : List Condition) (rec : Bytes) (cols : List ColMeta) : Prop :=
  OverUpper conds rec cols ∨ AtMax conds rec cols

/-- The record meets the equalities and is on the right side of both bounds. -/
def InRange (conds : List Condition) (rec : Bytes) (cols : List ColMeta) : Prop :=
  OnPrefix conds rec (fun cols => ¬ Before conds rec cols ∧ ¬ After conds rec cols) cols

/-- A stored record meets the equalities for the first columns of the index, and is on the wrong side of both the last
lower and the last upper bound for the column behind them. -/
def BeyondBoth (f : RmFileHandle) (conds : List Condition) (index : IndexMeta) : Prop :=
  ∃ rid rec, f.records rid = some rec ∧
    OnPrefix conds rec (fun cols => Before conds rec cols ∧ After conds rec cols) index.cols

/-- A record in the range of the conditions is the last of its leaf, and an empty leaf that is not the last one comes
next. -/
def GapInRange (f : RmFileHandle) (conds : List Condition) (index : IndexMeta) (lv : List (Leaf (List ℤ))) : Prop :=
  ∃ e rec, GapAfter lv e ∧ f.records e.2 = some rec ∧ InRange conds rec index.cols

/-- A record that satisfies the conditions is on a bound, with an infinite `FLOAT` in an index column behind it. -/
def InfiniteFloat (tab : TabMeta) (f : RmFileHandle) (conds : List Condition) (index : IndexMeta) : Prop :=
  ∃ rid rec, f.records rid = some rec ∧ conds.all (condHolds tab.cols rec) = true ∧
    OnPrefix conds rec (fun cols => AtMin conds rec cols ∨ AtMax conds rec cols) index.cols

/-! ### The conditions that bound a column -/

/-- The condition is one of the list on that column, with a value and an operator of the kind. -/
structure BoundBy (conds : List Condition) (colName : String) (kind : List CompOp) (cond : Condition) : Prop where
  mem : cond ∈ conds
  val : cond.isRhsVal = true
  name : cond.lhsCol.colName = colName
  op : cond.op ∈ kind

/-- What `beginTuple` finds among the conditions for a column. -/
structure Bounds.Ok (conds : List Condition) (colName : String) (b : Bounds) : Prop where
  eq : ∀ {cond}, b.eq = some cond → BoundBy conds colName [.eq] cond
  lower : ∀ {cond}, b.lower = some cond → BoundBy conds colName [.gt, .ge] cond
  upper : ∀ {cond}, b.upper = some cond → BoundBy conds colName [.lt, .le] cond

theorem pickCond_ok {conds : List Condition} {colName : String} {b : Bounds} {cond : Condition} (hb : b.Ok conds colName)
    (hcond : cond ∈ conds) : (pickCond colName b cond).Ok conds colName := by
  unfold pickCond
  split_ifs with hskip
  · exact hb
  · simp only [Bool.or_eq_true, Bool.not_eq_true', decide_eq_true_eq, not_or, Bool.not_eq_false, ne_eq, not_not] at hskip
    have hby : ∀ kind, cond.op ∈ kind → ∀ c', some cond = some c' → BoundBy conds colName kind c' := by
      rintro kind hop _ ⟨⟩
      exact ⟨hcond, hskip.1, hskip.2, hop⟩
    cases hop : cond.op with
    | eq => exact ⟨fun h => hby _ (by simp [hop]) _ h, hb.lower, hb.upper⟩
    | ne => exact hb
    | lt => exact ⟨hb.eq, hb.lower, fun h => hby _ (by simp [hop]) _ h⟩
    | gt => exact ⟨hb.eq, fun h => hby _ (by simp [hop]) _ h, hb.upper⟩
    | le => exact ⟨hb.eq, hb.lower, fun h => hby _ (by simp [hop]) _ h⟩
    | ge => exact ⟨hb.eq, fun h => hby _ (by simp [hop]) _ h, hb.upper⟩

theorem pickConds_ok (conds : List Condition) (colName : String) : (pickConds conds colName).Ok conds colName := by
  have hfold : ∀ (l : List Condition) (b : Bounds), (∀ c ∈ l, c ∈ conds) → b.Ok conds colName →
      (l.foldl (pickCond colName) b).Ok conds colName := by
    intro l
    induction l with
    | nil => exact fun b _ hb => hb
    | cons c l ih =>
      intro b hl hb
      exact ih _ (fun c hc => hl c (List.mem_cons_of_mem _ hc)) (pickCond_ok hb (hl c List.mem_cons_self))
  exact hfold conds _ (fun _ hc => hc) ⟨nofun, nofun, nofun⟩

/-- The conditions of a statement on one table, none of them over a `FLOAT` column. -/
def CondsOk (tab : TabMeta) (conds : List Condition) : Prop :=
  ∀ c ∈ conds, ∃ lhs, CondOk tab.cols c lhs ∧ lhs.type ≠ .float

/-- A condition on the name of an index column is one on that column. -/
theorem lhs_eq_of_name {tab : TabMeta} (htab : tab.Ok) {index : IndexMeta} (hindex : index ∈ tab.indexes) {c lhs : ColMeta}
    (hc : c ∈ index.cols) {cond : Condition} (h : CondOk tab.cols cond lhs) (hname : cond.lhsCol.colName = c.name) :
    lhs = c := by
  obtain ⟨hmem, htabName, -⟩ := getCol_spec h.found
  rw [(htab.cols lhs hmem).1] at htabName
  have hfound := h.found
  rw [getCol_of_tab (fun c hc => ((htab.cols c hc).1.trans htabName)), hname, htab.indexes index hindex c hc] at hfound
  cases hfound
  rfl

/-- A column of an index, a record, and the conditions that bound the column. -/
structure ColEnv (tab : TabMeta) (conds : List Condition) (rec : Bytes) (c : ColMeta) : Prop where
  len : c.LenOk
  inside : c.offset + c.len ≤ rec.length
  noNaN : ColNoNaN c.shape (c.read rec)
  bound : ∀ {kind cond}, BoundBy conds c.name kind cond → c.type ≠ .float ∧ (rawOf c cond).length = c.len ∧
    condHolds tab.cols rec cond = cond.op.holds (cmpCond rec c cond)

theorem colNoNaN_of_ne {c : ColMeta} (h : c.type ≠ .float) (bs : Bytes) : ColNoNaN c.shape bs := fun h' => absurd h' h

theorem colEnv {tab : TabMeta} (htab : tab.Ok) {conds : List Condition} (hconds : CondsOk tab conds) {index : IndexMeta}
    (hindex : index ∈ tab.indexes) {rec : Bytes} (hrec : tab.RecordOk rec) {c : ColMeta} (hc : c ∈ index.cols) :
    ColEnv tab conds rec c := by
  have hmem : c ∈ tab.cols := List.mem_of_find?_eq_some (htab.indexes index hindex c hc)
  have hlen := (htab.cols c hmem).2
  have hin := (hrec c hmem).1
  refine ⟨hlen, hin, (hrec c hmem).2, fun {kind cond} hb => ?_⟩
  obtain ⟨lhs, hok, hfloat⟩ := hconds cond hb.mem
  obtain rfl := lhs_eq_of_name htab hindex hc hok hb.name
  obtain ⟨-, raw, hraw, hrawlen⟩ := hok.val hb.val
  have hrawOf : rawOf lhs cond = raw := by
    rw [rawOf, hraw, Option.getD_some, List.take_of_length_le hrawlen.le]
  refine ⟨hfloat, by rw [hrawOf, hrawlen], ?_⟩
  -- the comparison reads the record from the column on, and looks at the column only
  have hread : colVal lhs.shape (rec.drop lhs.offset) = colVal lhs.shape (lhs.read rec) := by
    rw [← List.take_append_drop lhs.len (rec.drop lhs.offset)]
    exact colVal_append hlen _ (ColMeta.length_read hin)
  have h1 := compareCol_eq (colNoNaN_of_ne hfloat (rec.drop lhs.offset)) (colNoNaN_of_ne hfloat raw)
  have h2 := compareCol_eq (colNoNaN_of_ne hfloat (lhs.read rec)) (colNoNaN_of_ne hfloat raw)
  rw [hok.condHolds_val hb.val rec, hraw, Option.getD_some, cmpCond, hrawOf]
  congr 1
  exact h1.trans (hread ▸ h2.symm)

/-- A condition is compared by the values of the two sides. -/
theorem ColEnv.cmpCond_eq {tab : TabMeta} {conds : List Condition} {rec : Bytes} {c : ColMeta} (h : ColEnv tab conds rec c)
    {kind : List CompOp} {cond : Condition} (hb : BoundBy conds c.name kind cond) :
    cmpCond rec c cond = sign3 (colVal c.shape (c.read rec)) (colVal c.shape (rawOf c cond)) :=
  compareCol_eq h.noNaN (colNoNaN_of_ne (h.bound hb).1 _)

/-! ### The scan keys bound the range -/

/-- The value of the record's key. -/
def recVal (rec : Bytes) (cols : List ColMeta) : List ℤ := cols.flatMap fun c => colVal c.shape (c.read rec)

/-- The value of the lower key. -/
def lowVal (conds : List Condition) (stop : Bool) (cols : List ColMeta) : List ℤ :=
  keyVal (cols.map (·.shape)) (scanKeys conds stop cols).1

/-- The value of the upper key. -/
def highVal (conds : List Condition) (stop : Bool) (cols : List ColMeta) : List ℤ :=
  keyVal (cols.map (·.shape)) (scanKeys conds stop cols).2

section Keys

variable {tab : TabMeta} {conds : List Condition} {rec : Bytes}

theorem recVal_cons (rec : Bytes) (c : ColMeta) (cols : List ColMeta) :
    recVal rec (c :: cols) = colVal c.shape (c.read rec) ++ recVal rec cols := by
  simp [recVal]

theorem lowVal_stop {c : ColMeta} (hc : c.LenOk) (cols : List ColMeta) :
    lowVal conds true (c :: cols) = colVal c.shape (fillMin c) ++ lowVal conds true cols :=
  keyVal_cons hc _ _ (length_fillMin hc)

theorem highVal_stop {c : ColMeta} (hc : c.LenOk) (cols : List ColMeta) :
    highVal conds true (c :: cols) = colVal c.shape (fillMax c) ++ highVal conds true cols :=
  keyVal_cons hc _ _ (length_fillMax hc)

theorem lowVal_eq {c : ColMeta} (h : ColEnv tab conds rec c) {eq : Condition} (heq : (pickConds conds c.name).eq = some eq)
    (cols : List ColMeta) : lowVal conds false (c :: cols) = colVal c.shape (rawOf c eq) ++ lowVal conds false cols := by
  have hb := (pickConds_ok conds c.name).eq heq
  unfold lowVal
  rw [scanKeys]
  simp only [heq]
  exact keyVal_cons h.len _ _ (h.bound hb).2.1

theorem highVal_eq {c : ColMeta} (h : ColEnv tab conds rec c) {eq : Condition} (heq : (pickConds conds c.name).eq = some eq)
    (cols : List ColMeta) : highVal conds false (c :: cols) = colVal c.shape (rawOf c eq) ++ highVal conds false cols := by
  have hb := (pickConds_ok conds c.name).eq heq
  unfold highVal
  rw [scanKeys]
  simp only [heq]
  exact keyVal_cons h.len _ _ (h.bound hb).2.1

theorem lowVal_range {c : ColMeta} (h : ColEnv tab conds rec c) (heq : (pickConds conds c.name).eq = none)
    (cols : List ColMeta) : lowVal conds false (c :: cols) =
      colVal c.shape (rawOr c (pickConds conds c.name).lower (fillMin c)) ++ lowVal conds true cols := by
  unfold lowVal
  rw [scanKeys]
  simp only [heq]
  refine keyVal_cons h.len _ _ ?_
  cases hl : (pickConds conds c.name).lower with
  | none => exact length_fillMin h.len
  | some lower => exact (h.bound ((pickConds_ok conds c.name).lower hl)).2.1

theorem highVal_range {c : ColMeta} (h : ColEnv tab conds rec c) (heq : (pickConds conds c.name).eq = none)
    (cols : List ColMeta) : highVal conds false (c :: cols) =
      colVal c.shape (rawOr c (pickConds conds c.name).upper (fillMax c)) ++ highVal conds true cols := by
  unfold highVal
  rw [scanKeys]
  simp only [heq]
  refine keyVal_cons h.len _ _ ?_
  cases hu : (pickConds conds c.name).upper with
  | none => exact length_fillMax h.len
  | some upper => exact (h.bound ((pickConds_ok conds c.name).upper hu)).2.1

/-- Behind the bounds the lower key is the smallest finite one. -/
theorem recVal_lt_min {cols : List ColMeta} (h : ∀ c ∈ cols, ColEnv tab conds rec c) :
    recVal rec cols < lowVal conds true cols ↔ BelowMin rec cols := by
  induction cols with
  | nil => simp [recVal, lowVal, scanKeys, keyVal, BelowMin]
  | cons c cols ih =>
    have hc := h c List.mem_cons_self
    rw [recVal_cons, lowVal_stop hc.len, append_lt_append_iff _ _ (length_colVal _ _ _), colVal_lt_fillMin hc.noNaN,
      ih fun c hc => h c (List.mem_cons_of_mem _ hc), BelowMin]
    have := compareCol_eq hc.noNaN (noNaN_fillMin c)
    rw [show compareCol c.type c.len (c.read rec) (fillMin c) = _ from this, sign3_zero_iff]

theorem max_lt_recVal {cols : List ColMeta} (h : ∀ c ∈ cols, ColEnv tab conds rec c) :
    highVal conds true cols < recVal rec cols ↔ AboveMax rec cols := by
  induction cols with
  | nil => simp [recVal, highVal, scanKeys, keyVal, AboveMax]
  | cons c cols ih =>
    have hc := h c List.mem_cons_self
    rw [recVal_cons, highVal_stop hc.len, append_lt_append_iff _ _ (length_colVal _ _ _), fillMax_lt_colVal hc.noNaN,
      ih fun c hc => h c (List.mem_cons_of_mem _ hc), AboveMax]
    have := compareCol_eq hc.noNaN (noNaN_fillMax c)
    rw [show compareCol c.type c.len (c.read rec) (fillMax c) = _ from this, sign3_zero_iff, eq_comm (b := colVal _ _)]

/-- At the first column without an equality the lower key is the lower bound. -/
theorem recVal_lt_low {c : ColMeta} {cols : List ColMeta} (h : ∀ c' ∈ c :: cols, ColEnv tab conds rec c')
    (heq : (pickConds conds c.name).eq = none) :
    recVal rec (c :: cols) < lowVal conds false (c :: cols) ↔ Before conds rec (c :: cols) := by
  have hc := h c List.mem_cons_self
  have hmin := recVal_lt_min fun c' hc' => h c' (List.mem_cons_of_mem _ hc')
  simp only [Before, UnderLower, AtMin]
  cases hl : (pickConds conds c.name).lower with
  | none =>
    have hall := recVal_lt_min h
    rw [lowVal_stop hc.len] at hall
    rw [lowVal_range hc heq, hl]
    simpa [rawOr] using hall
  | some lower =>
    have hcmp := hc.cmpCond_eq ((pickConds_ok conds c.name).lower hl)
    rw [recVal_cons, lowVal_range hc heq, hl, rawOr, Option.map_some, Option.getD_some,
      append_lt_append_iff _ _ (length_colVal _ _ _), hmin]
    simp only [Option.some.injEq, exists_eq_left', hcmp, sign3_neg_iff, sign3_zero_iff]

theorem high_lt_recVal {c : ColMeta} {cols : List ColMeta} (h : ∀ c' ∈ c :: cols, ColEnv tab conds rec c')
    (heq : (pickConds conds c.name).eq = none) :
    highVal conds false (c :: cols) < recVal rec (c :: cols) ↔ After conds rec (c :: cols) := by
  have hc := h c List.mem_cons_self
  have hmax := max_lt_recVal fun c' hc' => h c' (List.mem_cons_of_mem _ hc')
  simp only [After, OverUpper, AtMax]
  cases hu : (pickConds conds c.name).upper with
  | none =>
    have hall := max_lt_recVal h
    rw [highVal_stop hc.len] at hall
    rw [highVal_range hc heq, hu]
    simpa [rawOr] using hall
  | some upper =>
    have hcmp := hc.cmpCond_eq ((pickConds_ok conds c.name).upper hu)
    rw [recVal_cons, highVal_range hc heq, hu, rawOr, Option.map_some, Option.getD_some,
      append_lt_append_iff _ _ (length_colVal _ _ _), hmax]
    simp only [Option.some.injEq, exists_eq_left', hcmp, sign3_pos_iff, sign3_zero_iff]
    rw [eq_comm (a := colVal c.shape (rawOf c upper))]

/-- **The scan keys**, seen from a record: what the record's key is to the two keys is decided behind the columns with an
equality. The two keys agree on those, so a record that does not meet them is on one side of both. -/
theorem onPrefix_iff {Q : Prop → Prop → Prop} (hQ : ¬ Q True False ∧ ¬ Q False True) {cols : List ColMeta}
    (h : ∀ c ∈ cols, ColEnv tab conds rec c) :
    Q (recVal rec cols < lowVal conds false cols) (highVal conds false cols < recVal rec cols) ↔
      OnPrefix conds rec (fun cols => Q (Before conds rec cols) (After conds rec cols)) cols := by
  induction cols with
  | nil => simp [recVal, lowVal, highVal, scanKeys, keyVal, OnPrefix, Before, After, UnderLower, OverUpper, AtMin, AtMax]
  | cons c cols ih =>
    have hc := h c List.mem_cons_self
    have ih := ih fun c' hc' => h c' (List.mem_cons_of_mem _ hc')
    cases heq : (pickConds conds c.name).eq with
    | none =>
      rw [OnPrefix]
      simp only [heq]
      rw [recVal_lt_low h heq, high_lt_recVal h heq]
    | some eq =>
      have hcmp := hc.cmpCond_eq ((pickConds_ok conds c.name).eq heq)
      rw [OnPrefix]
      simp only [heq, hcmp, sign3_zero_iff]
      rw [recVal_cons, lowVal_eq hc heq, highVal_eq hc heq, append_lt_append_iff _ _ (length_colVal _ _ _),
        append_lt_append_iff _ _ (length_colVal _ _ _)]
      rcases lt_trichotomy (colVal c.shape (c.read rec)) (colVal c.shape (rawOf c eq)) with hlt | heq' | hgt
      · simpa [hlt, hlt.not_gt, hlt.ne, hlt.ne'] using hQ.1
      · simp only [heq', lt_irrefl, false_or, true_and]
        exact ih
      · simpa [hgt, hgt.not_gt, hgt.ne, hgt.ne'] using hQ.2

/-- A record that satisfies the conditions is in their range, infinite numbers apart. -/
theorem inRange_iff_of_holds (hall : conds.all (condHolds tab.cols rec) = true) {cols : List ColMeta}
    (h : ∀ c ∈ cols, ColEnv tab conds rec c) :
    InRange conds rec cols ↔ ¬ OnPrefix conds rec (fun cols => AtMin conds rec cols ∨ AtMax conds rec cols) cols := by
  have hholds : ∀ {c kind cond}, c ∈ cols → BoundBy conds c.name kind cond → cond.op.holds (cmpCond rec c cond) = true := by
    intro c kind cond hc hb
    rw [← ((h c hc).bound hb).2.2]
    exact List.all_eq_true.mp hall cond hb.mem
  unfold InRange
  induction cols with
  | nil => simp [OnPrefix, Before, After, UnderLower, OverUpper, AtMin, AtMax]
  | cons c cols ih =>
    have ih := ih (fun c' hc' => h c' (List.mem_cons_of_mem _ hc')) fun hc' hb => hholds (List.mem_cons_of_mem _ hc') hb
    have hok := pickConds_ok conds c.name
    rw [OnPrefix, OnPrefix]
    cases heq : (pickConds conds c.name).eq with
    | none =>
      have hlow : ¬ UnderLower conds rec (c :: cols) := by
        rintro ⟨lower, hl, hlt⟩
        have hb := hok.lower hl
        have hh := hholds List.mem_cons_self hb
        have hop := hb.op
        simp only [List.mem_cons, List.not_mem_nil, or_false] at hop
        rcases hop with hop | hop <;> simp [hop, CompOp.holds] at hh <;> omega
      have hup : ¬ OverUpper conds rec (c :: cols) := by
        rintro ⟨upper, hu, hlt⟩
        have hb := hok.upper hu
        have hh := hholds List.mem_cons_self hb
        have hop := hb.op
        simp only [List.mem_cons, List.not_mem_nil, or_false] at hop
        rcases hop with hop | hop <;> simp [hop, CompOp.holds] at hh <;> omega
      simp only [Before, After, hlow, hup, false_or, not_or]
    | some eq =>
      have hb := hok.eq heq
      have hzero : cmpCond rec c eq = 0 := by
        have hh := hholds List.mem_cons_self hb
        have hop := hb.op
        simp only [List.mem_cons, List.not_mem_nil, or_false] at hop
        simpa [hop, CompOp.holds] using hh
      simp only [hzero, true_and]
      exact ih

end Keys

/-! ### The two scans -/

/-- The index and the table agree: an entry for every record, with the record's key, and no other. -/
def Agrees (index : IndexMeta) (f : RmFileHandle) (entries : List (List ℤ × Rid)) : Prop :=
  ∀ k rid, (k, rid) ∈ entries ↔ ∃ rec, f.records rid = some rec ∧ k = keyVal index.shape (index.makeIndexKey rec)

/-- Neither scan raises an error, and they return the same rids, the first one each of them once. -/
def SameRids (a b : Except RMDBError (List Rid)) : Prop :=
  ∃ xs ys, a = .ok xs ∧ b = .ok ys ∧ xs.Nodup ∧ ∀ rid, rid ∈ xs ↔ rid ∈ ys

theorem CondsOk.lhs_eq {tab : TabMeta} (htab : tab.Ok) {conds : List Condition} (hconds : CondsOk tab conds) :
    ∀ c ∈ conds, c.lhsCol.tabName = tab.name := by
  intro c hc
  obtain ⟨lhs, hok, -⟩ := hconds c hc
  obtain ⟨hmem, hname, -⟩ := getCol_spec hok.found
  rw [← hname]
  exact (htab.cols lhs hmem).1

section Scans

variable {tab : TabMeta} {f : RmFileHandle} {conds : List Condition} {index : IndexMeta} {ih : IxIndexHandle (List ℤ)}
  {lv : List (Leaf (List ℤ))} {lvls : List (List (Inner (List ℤ)))}

/-- A table, conditions on it, and an index of it that agrees with it. -/
structure ScanEnv (tab : TabMeta) (f : RmFileHandle) (conds : List Condition) (index : IndexMeta)
    (lv : List (Leaf (List ℤ))) : Prop where
  tabOk : tab.Ok
  recs : ∀ {rid rec}, f.records rid = some rec → tab.RecordOk rec
  checked : CondsOk tab conds
  indexed : index ∈ tab.indexes
  agrees : Agrees index f (contents lv)

namespace ScanEnv

theorem env (h : ScanEnv tab f conds index lv) {rid : Rid} {rec : Bytes} (hrec : f.records rid = some rec) :
    ∀ c ∈ index.cols, ColEnv tab conds rec c := fun _ hc => colEnv h.tabOk h.checked h.indexed (h.recs hrec) hc

theorem mem_iff (h : ScanEnv tab f conds index lv) {e : List ℤ × Rid} :
    e ∈ contents lv ↔ ∃ rec, f.records e.2 = some rec ∧ e.1 = recVal rec index.cols := by
  obtain ⟨k, rid⟩ := e
  rw [h.agrees k rid]
  refine exists_congr fun rec => and_congr_right ?_
  intro hrec
  have hcols : ∀ c ∈ index.cols, c.LenOk ∧ c.offset + c.len ≤ rec.length := fun c hc =>
    ⟨(h.env hrec c hc).len, (h.env hrec c hc).inside⟩
  rw [show keyVal index.shape (index.makeIndexKey rec) = _ from keyVal_flatMap hcols]
  rfl

/-- A record is between the scan keys when it is in the range of the conditions. -/
theorem between_iff (h : ScanEnv tab f conds index lv) {rid : Rid} {rec : Bytes} (hrec : f.records rid = some rec) :
    lowVal conds false index.cols ≤ recVal rec index.cols ∧ recVal rec index.cols ≤ highVal conds false index.cols ↔
      InRange conds rec index.cols := by
  rw [← not_lt, ← not_lt]
  exact onPrefix_iff (Q := fun a b => ¬ a ∧ ¬ b) (by simp) (h.env hrec)

theorem crossed_iff (h : ScanEnv tab f conds index lv) :
    IxIndexHandle.Crossed lv (lowVal conds false index.cols) (highVal conds false index.cols) ↔
      BeyondBoth f conds index := by
  constructor
  · rintro ⟨e, he, h1, h2⟩
    obtain ⟨rec, hrec, hk⟩ := h.mem_iff.mp he
    rw [hk] at h1 h2
    exact ⟨e.2, rec, hrec, (onPrefix_iff (Q := And) (by simp) (h.env hrec)).mp ⟨h2, h1⟩⟩
  · rintro ⟨rid, rec, hrec, hp⟩
    obtain ⟨h2, h1⟩ := (onPrefix_iff (Q := And) (by simp) (h.env hrec)).mpr hp
    exact ⟨(recVal rec index.cols, rid), h.mem_iff.mpr ⟨rec, hrec, rfl⟩, h1, h2⟩

theorem gap_iff (h : ScanEnv tab f conds index lv) :
    IxIndexHandle.Gap lv (lowVal conds false index.cols) (highVal conds false index.cols) ↔
      GapInRange f conds index lv := by
  constructor
  · rintro ⟨e, he, hle⟩
    obtain ⟨rec, hrec, hk⟩ := h.mem_iff.mp he.mem
    rw [hk] at hle
    exact ⟨e, rec, he, hrec, (h.between_iff hrec).mp hle⟩
  · rintro ⟨e, rec, he, hrec, hin⟩
    obtain ⟨rec', hrec', hk⟩ := h.mem_iff.mp he.mem
    rw [hrec] at hrec'
    cases hrec'
    refine ⟨e, he, ?_⟩
    rw [hk]
    exact (h.between_iff hrec).mpr hin

theorem mem_between (h : ScanEnv tab f conds index lv) {rid : Rid} :
    rid ∈ IxIndexHandle.between lv (lowVal conds false index.cols) (highVal conds false index.cols) ↔
      ∃ rec, f.records rid = some rec ∧ InRange conds rec index.cols := by
  unfold IxIndexHandle.between
  simp only [List.mem_map, List.mem_filter, decide_eq_true_eq]
  constructor
  · rintro ⟨e, ⟨he, hle⟩, rfl⟩
    obtain ⟨rec, hrec, hk⟩ := h.mem_iff.mp he
    rw [hk] at hle
    exact ⟨rec, hrec, (h.between_iff hrec).mp hle⟩
  · rintro ⟨rec, hrec, hin⟩
    exact ⟨(recVal rec index.cols, rid), ⟨h.mem_iff.mpr ⟨rec, hrec, rfl⟩, (h.between_iff hrec).mpr hin⟩, rfl⟩

/-- The rids of the entries are distinct. -/
theorem nodup_rids (h : ScanEnv tab f conds index lv) (hinv : ih.Inv lv lvls) : ((contents lv).map (·.2)).Nodup := by
  refine List.Nodup.map_on ?_ ?_
  · intro a ha b hb hab
    obtain ⟨ra, hra, hka⟩ := h.mem_iff.mp ha
    obtain ⟨rb, hrb, hkb⟩ := h.mem_iff.mp hb
    rw [hab, hrb] at hra
    cases hra
    exact Prod.ext (hka.trans hkb.symm) hab
  · refine hinv.sorted_contents.imp fun {a b} hlt heq => ?_
    rw [heq] at hlt
    exact lt_irrefl _ hlt

theorem condsOk (h : ScanEnv tab f conds index lv) : ∀ c ∈ conds, ∃ lhs, CondOk tab.cols c lhs :=
  fun c hc => (h.checked c hc).imp fun _ h => h.1

/-- The test of the executors does not fail on the entries of the index. -/
theorem testRid_eq (h : ScanEnv tab f conds index lv) {L : List Rid} (hL : L ⊆ (contents lv).map (·.2)) :
    ∀ r ∈ L, testRid f tab.cols conds r = .ok (satisfies f tab.cols conds r) := by
  intro r hr
  obtain ⟨e, he, rfl⟩ := List.mem_map.mp (hL hr)
  obtain ⟨rec, hrec, -⟩ := h.mem_iff.mp he
  exact Execution.testRid_eq h.condsOk (by rw [hrec]; rfl)

/-- The records in the range that satisfy the conditions are all that do, infinite numbers apart. -/
theorem rids_iff (h : ScanEnv tab f conds index lv) :
    (∀ rid, rid ∈ (IxIndexHandle.between lv (lowVal conds false index.cols) (highVal conds false index.cols)).filter
      (satisfies f tab.cols conds) ↔ rid ∈ f.rids.filter (satisfies f tab.cols conds)) ↔
      ¬ InfiniteFloat tab f conds index := by
  simp only [List.mem_filter, h.mem_between, RmFileHandle.mem_rids]
  constructor
  · rintro hall ⟨rid, rec, hrec, hsat, hinf⟩
    have hsat' : satisfies f tab.cols conds rid = true := by simp only [satisfies, hrec, hsat]
    obtain ⟨⟨rec', hrec', hin⟩, -⟩ := (hall rid).mpr ⟨by rw [hrec]; rfl, hsat'⟩
    rw [hrec] at hrec'
    cases hrec'
    exact (inRange_iff_of_holds hsat (h.env hrec)).mp hin hinf
  · intro hno rid
    constructor
    · rintro ⟨⟨rec, hrec, -⟩, hsat⟩
      exact ⟨by rw [hrec]; rfl, hsat⟩
    · rintro ⟨hsome, hsat⟩
      obtain ⟨rec, hrec⟩ := Option.isSome_iff_exists.mp hsome
      have hall : conds.all (condHolds tab.cols rec) = true := by simpa only [satisfies, hrec] using hsat
      refine ⟨⟨rec, hrec, (inRange_iff_of_holds hall (h.env hrec)).mpr ?_⟩, hsat⟩
      intro hinf
      exact hno ⟨rid, rec, hrec, hall, hinf⟩

end ScanEnv

end Scans

/-- **An index scan and a sequential scan** of a table under the same conditions return the same rids, unless a stored
record is beyond both bounds, the scan steps onto an empty leaf, or an infinite number lies behind a bound. -/
theorem indexScan_iff {tab : TabMeta} {f : RmFileHandle} (ihs : IndexMeta → IxIndexHandle (List ℤ))
    {conds : List Condition} {colNames : List String} (htab : tab.Ok)
    (hrecs : ∀ {rid rec}, f.records rid = some rec → tab.RecordOk rec) (hconds : CondsOk tab conds)
    (hsel : Optimizer.getIndexCols tab conds = some colNames) :
    ∃ index, tab.getIndexMeta colNames = .ok index ∧ ∀ lv lvls, (ihs index).Inv lv lvls →
      Agrees index f (contents lv) →
      (SameRids (indexScan tab f ihs conds colNames) (seqScan tab f conds) ↔
        ¬ BeyondBoth f conds index ∧ ¬ GapInRange f conds index lv ∧ ¬ InfiniteFloat tab f conds index) := by
  obtain ⟨index, hindex⟩ := Optimizer.getIndexMeta_of_getIndexCols hsel
  refine ⟨index, hindex, ?_⟩
  intro lv lvls hinv hagree
  have h : ScanEnv tab f conds index lv := ⟨htab, hrecs, hconds, TabMeta.getIndexMeta_mem hindex, hagree⟩
  obtain ⟨first, last, hfirst, hlast, hok, herr⟩ :=
    hinv.scan_cases (lowVal conds false index.cols) (highVal conds false index.cols)
  rw [h.crossed_iff, h.gap_iff] at hok herr
  have hscan : indexScan tab f ihs conds colNames = ((ihs index).ixScan last).iterate .assertion
      (testRid f tab.cols conds) ((ihs index).fd2pageno.toNat * (ihs index).maxSize + 1) first := by
    unfold indexScan
    rw [hindex, feedConds_of_lhs (hconds.lhs_eq htab)]
    have hlow : (ihs index).lowerBound (keyVal index.shape (scanKeys conds false index.cols).1) = some first := hfirst
    have hhigh : (ihs index).upperBound (keyVal index.shape (scanKeys conds false index.cols).2) = some last := hlast
    simp only [bind, Except.bind, hlow, hhigh]
  have hlen := hinv.length_contents_le
  rw [hscan, seqScan_eq h.condsOk]
  by_cases hfail : BeyondBoth f conds index ∨ GapInRange f conds index lv
  · obtain ⟨L, i, hv, hL, hend, hread⟩ := herr hfail
    have hbound : L.length < (ihs index).fd2pageno.toNat * (ihs index).maxSize + 1 := by
      have := hL.length_le
      rw [List.length_map] at this
      omega
    rw [hv.iterate_error hend hread (h.testRid_eq hL.subset) hbound]
    constructor
    · rintro ⟨xs, ys, hxs, -⟩
      cases hxs
    · rintro ⟨h1, h2, -⟩
      exact absurd hfail (not_or.mpr ⟨h1, h2⟩)
  · obtain ⟨h1, h2⟩ := not_or.mp hfail
    obtain ⟨i, hv, hend⟩ := hok h1 h2
    have hsub := IxIndexHandle.between_sublist lv (lowVal conds false index.cols) (highVal conds false index.cols)
    have hbound : (IxIndexHandle.between lv (lowVal conds false index.cols) (highVal conds false index.cols)).length <
        (ihs index).fd2pageno.toNat * (ihs index).maxSize + 1 := by
      have := hsub.length_le
      rw [List.length_map] at this
      omega
    rw [hv.iterate_ok hend (h.testRid_eq hsub.subset) hbound]
    constructor
    · rintro ⟨xs, ys, hxs, hys, -, hiff⟩
      cases hxs
      cases hys
      exact ⟨h1, h2, h.rids_iff.mp hiff⟩
    · rintro ⟨-, -, h3⟩
      exact ⟨_, _, rfl, rfl, ((h.nodup_rids hinv).sublist hsub).filter _, h.rids_iff.mpr h3⟩

/-- An index without a `FLOAT` column has no infinite number in it. -/
theorem not_infiniteFloat {tab : TabMeta} {f : RmFileHandle} {conds : List Condition} {index : IndexMeta}
    (h : ∀ c ∈ index.cols, c.type ≠ .float) : ¬ InfiniteFloat tab f conds index := by
  have hmin : ∀ (rec : Bytes) {cols : List ColMeta}, (∀ c ∈ cols, c.type ≠ .float) → ¬ BelowMin rec cols ∧
      ¬ AboveMax rec cols := by
    intro rec cols hcols
    induction cols with
    | nil => exact ⟨id, id⟩
    | cons c cols ih =>
      have hc := hcols c List.mem_cons_self
      have ih := ih fun c hc => hcols c (List.mem_cons_of_mem _ hc)
      simp [BelowMin, AboveMax, hc, ih]
  rintro ⟨rid, rec, -, -, hp⟩
  have hnot : ∀ {cols : List ColMeta}, (∀ c ∈ cols, c.type ≠ .float) →
      ¬ OnPrefix conds rec (fun cols => AtMin conds rec cols ∨ AtMax conds rec cols) cols := by
    intro cols hcols
    induction cols with
    | nil => simp [OnPrefix, AtMin, AtMax]
    | cons c cols ih =>
      have ih := ih fun c hc => hcols c (List.mem_cons_of_mem _ hc)
      have hall := hmin rec hcols
      have hrest := hmin rec fun c hc => hcols c (List.mem_cons_of_mem _ hc)
      rw [OnPrefix]
      cases (pickConds conds c.name).eq with
      | some eq => exact fun hp => ih hp.2
      | none =>
        simp only [AtMin, AtMax]
        cases (pickConds conds c.name).lower <;> cases (pickConds conds c.name).upper <;> simp [hall, hrest]
  exact hnot h hp

/-! ### A table of one row -/

/-- The column `a INT` of the table `t`. -/
def colA : ColMeta := ⟨"t", "a", .int, 4, 0⟩

/-- The table `t (a INT)` with an index on `a`. -/
def tabA : TabMeta := ⟨"t", [colA], [⟨"t", [colA]⟩]⟩

/-- Its file, with the one row `7`. -/
def fileA : RmFileHandle where
  numPages := 2
  numRecordsPerPage := 988
  firstFreePageNo := 1
  pages _ := ⟨RM_NO_PAGE, 1, some (intBytes 4 7) :: List.replicate 987 none⟩

/-- The leaf of its index. -/
def leafA : Leaf (List ℤ) := ⟨[7], 2, [([7], ⟨1, 0⟩)]⟩

/-- Its index: the root is the leaf. -/
def indexA : IxIndexHandle (List ℤ) :=
  (IxIndexHandle.createIndex 4).setPage 2 ⟨true, IX_NO_PAGE, IX_LEAF_HEADER_PAGE, IX_LEAF_HEADER_PAGE, leafA.entries⟩

/-- The condition that compares `a` with an integer. -/
def condA (op : CompOp) (v : ℤ) : Condition := ⟨⟨"t", "a"⟩, op, true, ⟨"", ""⟩, ⟨.int v, some (intBytes 4 v)⟩⟩

theorem tabA_ok : tabA.Ok where
  named := by decide
  cols := by
    intro c hc
    obtain rfl : c = colA := by simpa [tabA] using hc
    exact ⟨rfl, rfl⟩
  indexes := by
    intro index hindex c hc
    obtain rfl : index = ⟨"t", [colA]⟩ := by simpa [tabA] using hindex
    obtain rfl : c = colA := by simpa using hc
    rfl

theorem fileA_records {rid : Rid} {rec : Bytes} :
    fileA.records rid = some rec ↔ rid = ⟨1, 0⟩ ∧ rec = intBytes 4 7 := by
  rw [RmFileHandle.records_eq]
  by_cases hin : fileA.InFile rid
  · obtain ⟨h1, h2, h3, h4⟩ := hin
    rw [if_pos ⟨h1, h2, h3, h4⟩]
    obtain ⟨page, slot⟩ := rid
    have h1 : 1 ≤ page := h1
    have h2 : page < 2 := h2
    obtain rfl : page = 1 := by omega
    obtain ⟨n, rfl⟩ : ∃ n : ℕ, slot = n := ⟨slot.toNat, (Int.toNat_of_nonneg h3).symm⟩
    cases n with
    | zero =>
      change some (intBytes 4 7) = some rec ↔ _
      simp [eq_comm]
    | succ n =>
      change ((List.replicate 987 (none : Option Bytes))[n]?).join = some rec ↔ _
      constructor
      · intro h
        have ho := Option.join_eq_some_iff.mp h
        cases List.eq_of_mem_replicate (List.mem_of_getElem? ho)
      · rintro ⟨h0, -⟩
        have := congrArg Rid.slotNo h0
        push_cast at this
        omega
  · rw [if_neg hin]
    refine ⟨nofun, ?_⟩
    rintro ⟨rfl, -⟩
    exact absurd (by decide) hin

theorem fileA_recordOk {rid : Rid} {rec : Bytes} (h : fileA.records rid = some rec) : tabA.RecordOk rec := by
  obtain ⟨-, rfl⟩ := fileA_records.mp h
  intro c hc
  obtain rfl : c = colA := by simpa [tabA] using hc
  exact ⟨by decide, by decide⟩

theorem condsA_ok {conds : List Condition} (h : ∀ c ∈ conds, ∃ op v, c = condA op v) : CondsOk tabA conds := by
  intro c hc
  obtain ⟨op, v, rfl⟩ := h c hc
  exact ⟨colA, ⟨rfl, fun _ => ⟨rfl, _, rfl, length_leBytes _ _⟩, nofun⟩, nofun⟩

theorem indexA_inv : indexA.Inv [leafA] [] where
  order := by decide
  up := ⟨[7], rfl, _, rfl, rfl⟩
  pages := ⟨by simp [leafA, upPages], by
    intro x hx
    obtain rfl : x = 2 := by simpa [leafA, upPages] using hx
    exact ⟨by decide, by decide⟩⟩
  leaves := by
    intro l hl
    obtain rfl : l = leafA := by simpa using hl
    exact ⟨⟨_, rfl, rfl, rfl⟩, List.pairwise_singleton _ _, by decide, by
      intro _ e he
      obtain rfl : e = ([7], ⟨1, 0⟩) := by simpa [leafA] using he
      exact le_refl _⟩
  keys := ⟨List.pairwise_singleton _ _, by simp⟩
  chain := ⟨⟨_, rfl, rfl, rfl⟩, trivial⟩
  first := rfl
  last := rfl

theorem indexA_agrees : Agrees ⟨"t", [colA]⟩ fileA (contents [leafA]) := by
  intro k rid
  simp only [fileA_records]
  have hkey : keyVal (IndexMeta.shape ⟨"t", [colA]⟩) (IndexMeta.makeIndexKey ⟨"t", [colA]⟩ (intBytes 4 7)) = [7] := by
    decide
  constructor
  · intro h
    obtain ⟨rfl, rfl⟩ : k = [7] ∧ rid = ⟨1, 0⟩ := by simpa [contents, leafA] using h
    exact ⟨_, ⟨rfl, rfl⟩, hkey.symm⟩
  · rintro ⟨rec, ⟨rfl, rfl⟩, hk⟩
    rw [hkey] at hk
    simp [contents, leafA, hk]

/-- Contradictory bounds with a row between them: under `a > 10 AND a < 5` the sequential scan returns nothing, and the
index scan that the planner chooses starts at the end of the leaf, behind its own end at slot `0`, and fails. -/
theorem indexScan_fails :
    tabA.Ok ∧ (∀ {rid rec}, fileA.records rid = some rec → tabA.RecordOk rec) ∧
      CondsOk tabA [condA .gt 10, condA .lt 5] ∧
      Optimizer.getIndexCols tabA [condA .gt 10, condA .lt 5] = some ["a"] ∧
      tabA.getIndexMeta ["a"] = .ok ⟨"t", [colA]⟩ ∧
      indexA.Inv [leafA] [] ∧ Agrees ⟨"t", [colA]⟩ fileA (contents [leafA]) ∧
      indexScan tabA fileA (fun _ => indexA) [condA .gt 10, condA .lt 5] ["a"] = .error .indexEntryNotFound ∧
      seqScan tabA fileA [condA .gt 10, condA .lt 5] = .ok [] ∧
      ¬ SameRids (indexScan tabA fileA (fun _ => indexA) [condA .gt 10, condA .lt 5] ["a"])
        (seqScan tabA fileA [condA .gt 10, condA .lt 5]) := by
  have hconds : CondsOk tabA [condA .gt 10, condA .lt 5] := condsA_ok (by simp)
  have hindex : indexScan tabA fileA (fun _ => indexA) [condA .gt 10, condA .lt 5] ["a"] = .error .indexEntryNotFound := by
    decide
  have hseq : seqScan tabA fileA [condA .gt 10, condA .lt 5] = .ok [] := by
    rw [seqScan_eq fun c hc => (hconds c hc).imp fun _ h => h.1, List.filter_eq_nil_iff.mpr]
    intro rid hrid
    obtain ⟨rec, hrec⟩ := Option.isSome_iff_exists.mp (RmFileHandle.mem_rids.mp hrid)
    obtain ⟨rfl, rfl⟩ := fileA_records.mp hrec
    simp only [satisfies, hrec]
    decide
  refine ⟨tabA_ok, fileA_recordOk, hconds, by decide, by decide, indexA_inv, indexA_agrees, hindex, hseq, ?_⟩
  rintro ⟨xs, ys, hxs, -⟩
  rw [hindex] at hxs
  cases hxs

/-- Under `a > 5` no row is on the wrong side of both bounds, and the two scans agree. -/
theorem indexScan_iff_lower :
    SameRids (indexScan tabA fileA (fun _ => indexA) [condA .gt 5] ["a"]) (seqScan tabA fileA [condA .gt 5]) := by
  have hconds : CondsOk tabA [condA .gt 5] := condsA_ok (by simp)
  obtain ⟨index, hindex, h⟩ := indexScan_iff (fun _ => indexA) tabA_ok fileA_recordOk hconds
    (show Optimizer.getIndexCols tabA [condA .gt 5] = some ["a"] by decide)
  obtain rfl : index = ⟨"t", [colA]⟩ := by
    have : tabA.getIndexMeta ["a"] = .ok ⟨"t", [colA]⟩ := by decide
    rw [this] at hindex
    cases hindex
    rfl
  refine (h _ _ indexA_inv indexA_agrees).mpr ⟨?_, ?_, not_infiniteFloat (by simp [colA])⟩
  · rintro ⟨rid, rec, hrec, hp⟩
    obtain ⟨-, hafter⟩ : Before [condA .gt 5] rec [colA] ∧ After [condA .gt 5] rec [colA] := hp
    have hno : (pickConds [condA .gt 5] "a").upper = none := rfl
    simp [After, OverUpper, AtMax, AboveMax, colA, hno] at hafter
  · rintro ⟨e, rec, ⟨A, a, b, B, hlv, -⟩, -⟩
    have := congrArg List.length hlv
    simp at this
    omega

end Rmdb.Execution
