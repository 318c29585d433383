import Rmdb.Execution.Aggregate
import Rmdb.Execution.IndexScan
import Rmdb.Lib.Rounding
import Rmdb.Record.Layout

/-!
# The sum of an INT column

`SUM` adds the values of an `INT` column in a `double` and converts it to the `int` of the
result. A `double` holds all integers up to `2 ^ 53`, so that the sum is exact unless there are
millions of rows; but the conversion of a number that is no `int` is undefined. `SUM` is the
sum of the values exactly if this is an `int`, and rounding has not changed it
(`sum_exact_iff`).

What is used of `double` is IEEE arithmetic on integers (`DoubleOps.Ieee`), and nothing is
assumed about a conversion out of range.
-/

namespace Rmdb.Execution

open Lib Record
open Rmdb.Parser (AggFuncType)

/-- Integers in `double`, to the nearest, ties to even: `isInt d n` says that `d` is the integer `n`. -/
structure DoubleOps.Ieee (D : DoubleOps) (isInt : D.carrier → ℤ → Prop) : Prop where
  zero : isInt D.zero 0
  addInt : ∀ d m n, isInt d m → InInt n → isInt (D.addInt d n) (roundInt 53 (m + n))
  toInt : ∀ d m, isInt d m → InInt m → D.toInt d = m

/-- The values of an `INT` column. -/
def intValues (src : ColMeta) (rows : List Bytes) : List ℤ := rows.map fun rec => leInt 4 (src.read rec)

instance (x : ℤ) : Decidable (InInt x) := instDecidableAnd

/-- The integers among the doubles. A conversion out of range gives `outside`. -/
def intDouble (outside : ℤ) : DoubleOps where
  carrier := ℤ
  zero := 0
  addInt d n := roundInt 53 (d + n)
  addFloat d _ := d
  toInt d := if InInt d then d else outside
  toFloat _ := 0

theorem intDouble_ieee (outside : ℤ) : (intDouble outside).Ieee fun d n => d = n where
  zero := rfl
  addInt d m n h _ := congrArg (fun d => roundInt 53 (d + n)) h
  toInt d m h hm := by
    obtain rfl : d = m := h
    exact if_pos hm

theorem inInt_leInt (bs : Bytes) : InInt (leInt 4 bs) := Index.leInt_bounds (by decide) bs

section Sum

variable {D : DoubleOps} {isInt : D.carrier → ℤ → Prop} {src : ColMeta} {rows : List Bytes}

theorem intValues_concat (rec : Bytes) : intValues src (rows ++ [rec]) = intValues src rows ++ [leInt 4 (src.read rec)] :=
  List.map_append

/-- **What is accumulated** is the sum with its roundings. -/
theorem isInt_aggSum (hD : D.Ieee isInt) (htype : src.type = .int) :
    isInt (aggSum D src rows) (roundedSum 53 (intValues src rows)) := by
  induction rows using List.reverseRecOn with
  | nil => exact hD.zero
  | append_singleton rows rec ih =>
    rw [aggSum_concat, sumStep, if_pos htype, intValues_concat, roundedSum_concat]
    exact hD.addInt _ _ _ ih (inInt_leInt _)

/-- Up to `2 ^ 22` rows no partial sum is above `2 ^ 53`. -/
theorem partial_sums_of_length (h : rows.length ≤ 2 ^ 22) : ∀ l, l <+: intValues src rows → |l.sum| ≤ 2 ^ 53 := by
  intro l hl
  have hlen : l.length ≤ 2 ^ 22 := by
    have hle := hl.length_le
    rw [intValues, List.length_map] at hle
    exact hle.trans h
  have hbound : |l.sum| ≤ l.length * 2 ^ 31 := by
    have hmem : ∀ x ∈ l, InInt x := by
      intro x hx
      obtain ⟨rec, -, rfl⟩ := List.mem_map.mp (hl.subset hx)
      exact inInt_leInt _
    clear hlen hl
    induction l with
    | nil => exact le_refl _
    | cons x l ih =>
      have hx : |x| ≤ 2 ^ 31 := abs_le.mpr ⟨(hmem x List.mem_cons_self).1, le_of_lt (hmem x List.mem_cons_self).2⟩
      have hrest := ih fun y hy => hmem y (List.mem_cons_of_mem _ hy)
      rw [List.sum_cons, List.length_cons]
      have habs := abs_add_le x l.sum
      push_cast
      omega
  omega

variable {prevCols cols : List ColMeta} {aggs : List AggCall} {agg : AggCall} {col : ColMeta}

/-- The row that is returned holds what was accumulated, converted. -/
theorem read_sum (D : DoubleOps) (hcols : aggCols prevCols 0 aggs = .ok cols) (hsum : SumsOk prevCols aggs)
    (hrows : ∀ rec ∈ rows, RecOk prevCols rec) (hmem : (agg, col) ∈ aggs.zip cols) (hf : agg.funcType = .sum)
    (hsrc : getCol prevCols agg.col = .ok src) (htype : src.type = .int) :
    ∃ res, AggReturns D prevCols aggs cols rows res ∧ col.read res = intBytes 4 (D.toInt (aggSum D src rows)) := by
  obtain ⟨slots, hres, hcalls, hlaid, hok⟩ := exists_slots D hcols hsum hrows
  refine ⟨_, aggReturns_of_aggResult hres, ?_⟩
  rw [← hcalls] at hmem
  obtain ⟨slot, hslot, hcall⟩ := List.mem_map.mp hmem
  obtain ⟨rfl, rfl⟩ := Prod.mk.inj hcall
  have hread := read_out (A := []) hlaid hslot
  rw [List.nil_append] at hread
  obtain ⟨src', hsrc', htype', -⟩ := (laid_callOk hlaid hslot).found (by rw [hf]; decide)
  cases hsrc.symm.trans hsrc'
  have hint : slot.col.type = .int := htype'.trans htype
  rw [hread, Slot.out, hf]
  simp only [hint, if_true, (hok slot hslot).sum hf src hsrc]

/-- `SUM` returns the sum of the values, whatever a conversion out of range gives. -/
def SumReturned (prevCols : List ColMeta) (aggs : List AggCall) (cols : List ColMeta) (rows : List Bytes)
    (col src : ColMeta) : Prop :=
  ∀ (D : DoubleOps) (isInt : D.carrier → ℤ → Prop), D.Ieee isInt →
    ∃ res, AggReturns D prevCols aggs cols rows res ∧ leInt 4 (col.read res) = (intValues src rows).sum

/-- **When `SUM` is right**: the sum of the values is an `int`, and rounding has not changed it; it does not as long as no
partial sum is above `2 ^ 53`, and so for up to `2 ^ 22` rows. -/
theorem sum_exact_iff (hcols : aggCols prevCols 0 aggs = .ok cols) (hsum : SumsOk prevCols aggs)
    (hrows : ∀ rec ∈ rows, RecOk prevCols rec) (hmem : (agg, col) ∈ aggs.zip cols) (hf : agg.funcType = .sum)
    (hsrc : getCol prevCols agg.col = .ok src) (htype : src.type = .int) :
    (SumReturned prevCols aggs cols rows col src ↔
      InInt (intValues src rows).sum ∧ roundedSum 53 (intValues src rows) = (intValues src rows).sum) ∧
    (rows.length ≤ 2 ^ 22 ∨ (∀ l, l <+: intValues src rows → |l.sum| ≤ 2 ^ 53) →
      roundedSum 53 (intValues src rows) = (intValues src rows).sum) := by
  refine ⟨⟨?_, ?_⟩, fun h => roundedSum_eq_sum (by decide) (h.elim partial_sums_of_length id)⟩
  · intro h
    -- a conversion out of range may give another number than the sum
    obtain ⟨outside, houtside, hne⟩ : ∃ outside, InInt outside ∧ outside ≠ (intValues src rows).sum := by
      by_cases hzero : (intValues src rows).sum = 0
      · exact ⟨1, by decide, by rw [hzero]; decide⟩
      · exact ⟨0, by decide, Ne.symm hzero⟩
    have hD := intDouble_ieee outside
    obtain ⟨res, hret, hres⟩ := h _ _ hD
    obtain ⟨res', hret', hread⟩ := read_sum (intDouble outside) hcols hsum hrows hmem hf hsrc htype
    rw [hret.unique hret', hread] at hres
    have hacc : aggSum (intDouble outside) src rows = roundedSum 53 (intValues src rows) := isInt_aggSum hD htype
    have hconv : (intDouble outside).toInt (aggSum (intDouble outside) src rows) =
        if InInt (roundedSum 53 (intValues src rows)) then roundedSum 53 (intValues src rows) else outside := by
      rw [hacc]
      rfl
    rw [hconv] at hres
    split at hres
    next hint =>
      rw [leInt_intBytes hint] at hres
      exact ⟨hres ▸ hint, hres⟩
    next =>
      rw [leInt_intBytes houtside] at hres
      exact absurd hres hne
  · rintro ⟨hint, hround⟩ D isInt hD
    obtain ⟨res, hret, hread⟩ := read_sum D hcols hsum hrows hmem hf hsrc htype
    have hacc : isInt (aggSum D src rows) (roundedSum 53 (intValues src rows)) := isInt_aggSum hD htype
    rw [hround] at hacc
    rw [hD.toInt _ _ hacc hint] at hread
    exact ⟨res, hret, by rw [hread, leInt_intBytes hint]⟩

end Sum

/-- `SUM` of two rows. -/
theorem sum_exact_iff_two :
    SumReturned [⟨"t", "a", .int, 4, 0⟩] [⟨.sum, ⟨"t", "a"⟩, "s"⟩] [⟨"", "s", .int, 4, 0⟩] [intBytes 4 (-1), intBytes 4 3]
      ⟨"", "s", .int, 4, 0⟩ ⟨"t", "a", .int, 4, 0⟩ :=
  (sum_exact_iff rfl (fun agg hagg _ src hsrc => by
      obtain rfl := List.mem_singleton.mp hagg
      cases hsrc
      exact ⟨rfl, .inl rfl⟩)
    (by decide) (List.mem_singleton_self ((⟨.sum, ⟨"t", "a"⟩, "s"⟩ : AggCall), (⟨"", "s", .int, 4, 0⟩ : ColMeta)))
    rfl rfl rfl).1.mpr (by decide)

/-- The sum of `2 ^ 31 - 1` and 1 is no `int`. -/
theorem not_sumReturned : ¬ ∀ (prevCols : List ColMeta) (aggs : List AggCall) (cols : List ColMeta) (rows : List Bytes)
    (agg : AggCall) (col src : ColMeta), aggCols prevCols 0 aggs = .ok cols → SumsOk prevCols aggs →
    (∀ rec ∈ rows, RecOk prevCols rec) → (agg, col) ∈ aggs.zip cols → agg.funcType = .sum →
    getCol prevCols agg.col = .ok src → src.type = .int → SumReturned prevCols aggs cols rows col src := by
  intro hall
  obtain ⟨res, -, hres⟩ := hall [⟨"t", "a", .int, 4, 0⟩] [⟨.sum, ⟨"t", "a"⟩, "s"⟩] [⟨"", "s", .int, 4, 0⟩]
    [intBytes 4 (2 ^ 31 - 1), intBytes 4 1] ⟨.sum, ⟨"t", "a"⟩, "s"⟩ ⟨"", "s", .int, 4, 0⟩ ⟨"t", "a", .int, 4, 0⟩ rfl
    (fun agg hagg _ src hsrc => by
      obtain rfl := List.mem_singleton.mp hagg
      cases hsrc
      exact ⟨rfl, .inl rfl⟩)
    (by decide) (List.mem_singleton_self _) rfl rfl rfl (intDouble 0) _ (intDouble_ieee 0)
  have hint := inInt_leInt ((⟨"", "s", .int, 4, 0⟩ : ColMeta).read res)
  rw [hres] at hint
  exact absurd hint (by decide)

end Rmdb.Execution
