import Rmdb.Execution.Select

/-!
# The order of the rows

The comparison that `SortExecutor` gives to `std::sort` goes through the columns of the
`ORDER BY` and stops at the first that decides. Column by column it is a three-way
comparison, one that is turned round for a descending column, so all of it is a strict weak
order (`strictWeak_sortLess`), which `std::sort` relies on. What a sorted list is is said
by the values of the columns, without the comparison (`RowBefore`).
-/

namespace Rmdb.Execution

open Lib

/-! ### The values of the columns -/

/-- The bytes of a `CHAR` column. -/
def charBytes (col : ColMeta) (row : Bytes) : Bytes := (List.range col.len).map fun i => (row.drop col.offset).getD i 0

/-- The value in the column is less: as an integer, or byte by byte. -/
def ValueLt (col : ColMeta) (a b : Bytes) : Prop :=
  match col.type with
  | .int => leInt 4 (a.drop col.offset) < leInt 4 (b.drop col.offset)
  | .bigint | .datetime => leInt 8 (a.drop col.offset) < leInt 8 (b.drop col.offset)
  | .string => charBytes col a < charBytes col b
  | .float => False

/-- The value in the column is the same. -/
def ValueEq (col : ColMeta) (a b : Bytes) : Prop :=
  match col.type with
  | .int => leInt 4 (a.drop col.offset) = leInt 4 (b.drop col.offset)
  | .bigint | .datetime => leInt 8 (a.drop col.offset) = leInt 8 (b.drop col.offset)
  | .string => charBytes col a = charBytes col b
  | .float => True

/-- A row comes before another one by a column in its direction. -/
def ColBefore (x : ColMeta × Bool) (a b : Bytes) : Prop := if x.2 then ValueLt x.1 b a else ValueLt x.1 a b

/-- A row comes before another one: by the first column in which they differ. -/
def RowBefore (sortCols : List (ColMeta × Bool)) (a b : Bytes) : Prop :=
  ∃ pre x post, sortCols = pre ++ x :: post ∧ (∀ y ∈ pre, ValueEq y.1 a b) ∧ ColBefore x a b

/-- `std::sort` sorts, by any strict weak order. -/
def StdSort.Sorts (std : StdSort) : Prop :=
  ∀ less : Bytes → Bytes → Bool, IsStrictWeakOrder Bytes (fun a b => less a b = true) →
    ∀ rows, (std.sort less rows).Pairwise fun a b => less b a = false

section Compare

variable {col : ColMeta} {a b : Bytes} {n : ℕ}

theorem sign3_neg {α : Type} [LinearOrder α] {x y : α} : sign3 x y < 0 ↔ x < y := by
  rw [sign3]
  rcases lt_trichotomy x y with h | h | h
  · simp [h]
  · simp [h]
  · simp [h, h.not_gt]

/-- `memcmp` compares byte by byte. -/
theorem memcmp_neg : memcmp n a b < 0 ↔
    (List.range n).map (fun i => a.getD i 0) < (List.range n).map fun i => b.getD i 0 := by
  induction n generalizing a b with
  | zero => exact iff_of_false (lt_irrefl (0 : ℤ)) (List.not_lt_nil _)
  | succ n ih =>
    have hsplit : ∀ l : Bytes, (List.range (n + 1)).map (fun i => l.getD i 0) =
        l.headD 0 :: (List.range n).map fun i => l.tail.getD i 0 := fun l => by
      rw [List.range_succ_eq_map, List.map_cons, List.map_map, getD_zero]
      refine congrArg _ (List.map_congr_left ?_)
      intro i _
      exact getD_succ l i
    have hlt : a.headD 0 < b.headD 0 ↔ sign3 (a.headD 0).toNat (b.headD 0).toNat < 0 := by
      rw [UInt8.lt_iff_toNat_lt, sign3_neg]
    have heq : a.headD 0 = b.headD 0 ↔ sign3 (a.headD 0).toNat (b.headD 0).toNat = 0 := by
      rw [← UInt8.toNat_inj, sign3_eq_zero]
    rw [hsplit, hsplit, List.cons_lt_cons_iff, memcmp_succ, ← ih, hlt, heq]
    split_ifs with h
    · exact ⟨Or.inl, fun hor => hor.resolve_right fun hand => h hand.1⟩
    · rw [not_not] at h
      rw [h]
      exact ⟨fun hlt => Or.inr ⟨rfl, hlt⟩, fun hor => (hor.resolve_left (lt_irrefl 0)).2⟩

theorem memcmp_zero : memcmp n a b = 0 ↔
    (List.range n).map (fun i => a.getD i 0) = (List.range n).map fun i => b.getD i 0 := by
  rw [memcmp_eq_zero_iff, List.map_inj_left]
  exact forall_congr' fun i => by rw [List.mem_range]

theorem sortCompareCol_neg (h : col.type ≠ .float) : sortCompareCol col a b < 0 ↔ ValueLt col a b := by
  obtain ⟨tabName, name, type, len, offset⟩ := col
  cases type with
  | float => exact absurd rfl h
  | string => exact memcmp_neg
  | int | bigint | datetime => exact sign3_neg

theorem sortCompareCol_zero (h : col.type ≠ .float) : sortCompareCol col a b = 0 ↔ ValueEq col a b := by
  obtain ⟨tabName, name, type, len, offset⟩ := col
  cases type with
  | float => exact absurd rfl h
  | string => exact memcmp_zero
  | int | bigint | datetime => exact sign3_eq_zero

theorem threeWay_sortCompareCol (h : col.type ≠ .float) : ThreeWay (sortCompareCol col) := by
  have hfun : sortCompareCol col = fun a b => compareCol col.type col.len (a.drop col.offset) (b.drop col.offset) :=
    funext fun a => funext fun b => sortCompareCol_eq col a b
  rw [hfun]
  exact (threeWay_compareCol h col.len).comap (List.drop col.offset)

end Compare

/-! ### The comparison of rows -/

/-- The comparison of rows, with three results. -/
def sortCompare : List (ColMeta × Bool) → Bytes → Bytes → ℤ
  | [] => fun _ _ => 0
  | (col, isDesc) :: cols =>
    lex3 (if isDesc then fun a b => sortCompareCol col b a else sortCompareCol col) (sortCompare cols)

section Rows

variable {sortCols : List (ColMeta × Bool)} {a b : Bytes}

theorem threeWay_sortCompare (h : ∀ x ∈ sortCols, x.1.type ≠ .float) : ThreeWay (sortCompare sortCols) := by
  induction sortCols with
  | nil => exact ThreeWay.const_zero
  | cons x cols ih =>
    obtain ⟨col, isDesc⟩ := x
    rw [List.forall_mem_cons] at h
    have hcol := threeWay_sortCompareCol h.1
    refine ThreeWay.lex ?_ (ih h.2)
    cases isDesc with
    | true => exact hcol.flip
    | false => exact hcol

/-- The comparison of the source is "below" of the one with three results. -/
theorem sortLess_iff (h : ∀ x ∈ sortCols, x.1.type ≠ .float) : sortLess sortCols a b = true ↔ sortCompare sortCols a b < 0 := by
  induction sortCols with
  | nil => exact iff_of_false Bool.false_ne_true (lt_irrefl (0 : ℤ))
  | cons x cols ih =>
    obtain ⟨col, isDesc⟩ := x
    rw [List.forall_mem_cons] at h
    have hneg : sortCompareCol col b a = -sortCompareCol col a b := (threeWay_sortCompareCol h.1).neg a b
    have ih := ih h.2
    rw [sortLess, sortCompare, lex3]
    cases isDesc with
    | true =>
      simp only [if_true, hneg]
      by_cases hzero : sortCompareCol col a b = 0
      · rw [if_pos hzero, if_neg (not_not.mpr (neg_eq_zero.mpr hzero)), ih]
      · rw [if_neg hzero, if_pos (mt neg_eq_zero.mp hzero), decide_eq_true_eq]
        omega
    | false =>
      simp only [Bool.false_eq_true, if_false]
      by_cases hzero : sortCompareCol col a b = 0
      · rw [if_pos hzero, if_neg (not_not.mpr hzero), ih]
      · rw [if_neg hzero, if_pos hzero, decide_eq_true_eq]

/-- **The comparison is a strict weak order.** -/
theorem strictWeak_sortLess (h : ∀ x ∈ sortCols, x.1.type ≠ .float) :
    IsStrictWeakOrder Bytes fun a b => sortLess sortCols a b = true := by
  have hfun : (fun a b => sortLess sortCols a b = true) = fun a b => sortCompare sortCols a b < 0 :=
    funext fun a => funext fun b => propext (sortLess_iff h)
  rw [hfun]
  exact (threeWay_sortCompare h).isStrictWeakOrder

theorem rowBefore_cons {x : ColMeta × Bool} : RowBefore (x :: sortCols) a b ↔
    ColBefore x a b ∨ ValueEq x.1 a b ∧ RowBefore sortCols a b := by
  constructor
  · rintro ⟨_ | ⟨y, pre⟩, z, post, hcols, hsame, hbefore⟩
    · obtain ⟨rfl, -⟩ := List.cons.inj hcols
      exact Or.inl hbefore
    · obtain ⟨rfl, rfl⟩ := List.cons.inj hcols
      rw [List.forall_mem_cons] at hsame
      exact Or.inr ⟨hsame.1, pre, z, post, rfl, hsame.2, hbefore⟩
  · rintro (hbefore | ⟨hsame, pre, z, post, rfl, hrest, hbefore⟩)
    · exact ⟨[], x, sortCols, rfl, fun y hy => absurd hy List.not_mem_nil, hbefore⟩
    · exact ⟨x :: pre, z, post, rfl, List.forall_mem_cons.mpr ⟨hsame, hrest⟩, hbefore⟩

/-- **The comparison says which row comes before**, by the values. -/
theorem sortLess_iff_rowBefore (h : ∀ x ∈ sortCols, x.1.type ≠ .float) :
    sortLess sortCols a b = true ↔ RowBefore sortCols a b := by
  induction sortCols with
  | nil =>
    refine iff_of_false Bool.false_ne_true ?_
    rintro ⟨pre, x, post, hcols, -⟩
    exact absurd hcols.symm (List.append_ne_nil_of_right_ne_nil _ (List.cons_ne_nil _ _))
  | cons x cols ih =>
    obtain ⟨col, isDesc⟩ := x
    rw [List.forall_mem_cons] at h
    have hneg : sortCompareCol col b a = -sortCompareCol col a b := (threeWay_sortCompareCol h.1).neg a b
    have hbefore : ColBefore (col, isDesc) a b ↔ (if isDesc then 0 < sortCompareCol col a b else sortCompareCol col a b < 0) := by
      rw [ColBefore]
      cases isDesc with
      | true =>
        rw [if_pos rfl, if_pos rfl, ← sortCompareCol_neg h.1, hneg]
        omega
      | false => rw [if_neg Bool.false_ne_true, if_neg Bool.false_ne_true, sortCompareCol_neg h.1]
    rw [rowBefore_cons, ← ih h.2, ← sortCompareCol_zero h.1, hbefore, sortLess]
    by_cases hzero : sortCompareCol col a b = 0
    · rw [if_pos hzero, hzero]
      cases isDesc <;> simp
    · rw [if_neg hzero, or_iff_left fun hand => hzero hand.1]
      cases isDesc <;> simp

end Rows

/-! ### What the executor returns -/

/-- **`SortExecutor` returns the first rows of the input in order**: its comparison is a strict weak order, so that `std::sort`
makes of the rows a list in which no row comes before one in front of it; and it enumerates as many of them as the limit allows. -/
theorem sort_exact {std : StdSort} (hstd : std.Sorts) {S : Type} {prev : Executor S} {I : S → Prop} {rows : List Bytes}
    (hprev : prev.Enumerates I rows) {sortCols : List (ColMeta × Bool)} (hcols : ∀ x ∈ sortCols, x.1.type ≠ .float) (limit : ℤ)
    {rounds : ℕ} (hrounds : rows.length < rounds) :
    IsStrictWeakOrder Bytes (fun a b => sortLess sortCols a b = true) ∧
    ∃ sorted out : List Bytes, sorted.Perm rows ∧ sorted.Pairwise (fun a b => ¬ RowBefore sortCols b a) ∧ out <+: sorted ∧
      out.length = (if 0 ≤ limit then min limit.toNat rows.length else rows.length) ∧
      (sortExecutor std prev sortCols limit rounds).Enumerates (fun s => I s.prev) out := by
  have hstrict := strictWeak_sortLess hcols
  have hperm := std.perm (sortLess sortCols) rows
  refine ⟨hstrict, std.sort (sortLess sortCols) rows, _, hperm, ?_, ?_, ?_, enumerates_sort std hprev sortCols limit hrounds⟩
  · refine (hstd _ hstrict rows).imp fun {a b} hless hbefore => ?_
    rw [(sortLess_iff_rowBefore hcols).mpr hbefore] at hless
    cases hless
  · rw [sortedTuples]
    split_ifs
    · exact List.take_prefix _ _
    · exact List.prefix_refl _
  · rw [sortedTuples, hperm.length_eq]
    split_ifs with hcut hlimit hlimit
    · rw [List.length_take, hperm.length_eq]
    · exact absurd hcut.1 hlimit
    · rw [hperm.length_eq]
      omega
    · exact hperm.length_eq

/-- A merge sort does as `std::sort`. -/
theorem sorts_mergeSort : mergeSort.Sorts := by
  intro less hless rows
  have hnot : ∀ a b, (!less b a) = true ↔ ¬ less b a = true := fun a b => by rw [Bool.not_eq_true', Bool.not_eq_true]
  have hsorted : (mergeSort.sort less rows).Pairwise fun a b => (!less b a) = true := by
    refine List.pairwise_mergeSort ?_ ?_ rows
    · intro a b d hab hbd
      rw [hnot] at hab hbd ⊢
      intro hda
      -- the middle row is like both or it is not, and then it comes before or after both
      by_cases hba : less a b = true
      · exact hbd (hless.trans _ _ _ hda hba)
      · by_cases hcb : less b d = true
        · exact hab (hless.trans _ _ _ hcb hda)
        · exact (hless.incomp_trans _ _ _ ⟨hba, hab⟩ ⟨hcb, hbd⟩).2 hda
    · intro a b
      rw [Bool.or_eq_true, hnot, hnot]
      by_cases hba : less b a = true
      · exact Or.inr fun hab => hless.irrefl _ (hless.trans _ _ _ hab hba)
      · exact Or.inl hba
  exact hsorted.imp fun {a b} hle => by simpa using hle

/-- `SELECT a FROM t ORDER BY a DESC LIMIT 2`, of three rows. -/
theorem sort_exact_two : ∃ sorted out : List Bytes, sorted.Perm ([7, 5, 6].map (intBytes 4)) ∧
    sorted.Pairwise (fun a b => ¬ RowBefore [(⟨"t", "a", .int, 4, 0⟩, true)] b a) ∧ out <+: sorted ∧ out.length = 2 ∧
    (sortExecutor mergeSort (intTable [7, 5, 6]).exec [(⟨"t", "a", .int, 4, 0⟩, true)] 2 4).Enumerates (fun _ => True) out :=
  (sort_exact sorts_mergeSort (enumerates_intTable [7, 5, 6])
    (fun x hx => by rw [List.mem_singleton.mp hx]; exact ColType.noConfusion) 2 (by decide)).2

end Rmdb.Execution
