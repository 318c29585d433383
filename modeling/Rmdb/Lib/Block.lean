import Mathlib.Data.List.GetD

/-!
# Blocks

A block is a buffer of a fixed number of cells. `copyTo` writes cells at an offset, as
`memcpy` does, and `cellsAt` reads some. What is written inside the block is read back
(`cellsAt_copyTo`), and reads elsewhere do not see it (`cellsAt_copyTo_of_disjoint`).
-/

namespace Rmdb.Lib

universe u

variable {α : Type u} [Inhabited α] {n : ℕ}

/-- Cell `i`; past the end, the default. -/
def cellAt (b : Fin n → α) (i : ℕ) : α := if h : i < n then b ⟨i, h⟩ else default

/-- The `len` cells at the offset. -/
def cellsAt (b : Fin n → α) (offset len : ℕ) : List α := (List.range len).map fun i => cellAt b (offset + i)

/-- Write `src` at the offset. -/
def copyTo (b : Fin n → α) (offset : ℕ) (src : List α) : Fin n → α :=
  fun i => if offset ≤ i ∧ i < offset + src.length then src.getD (i - offset) default else b i

@[simp] theorem length_cellsAt (b : Fin n → α) (offset len : ℕ) : (cellsAt b offset len).length = len := by
  simp [cellsAt]

theorem cellsAt_add (b : Fin n → α) (offset len len' : ℕ) :
    cellsAt b offset (len + len') = cellsAt b offset len ++ cellsAt b (offset + len) len' := by
  simp only [cellsAt, List.range_add, List.map_append, List.map_map, Function.comp_def, Nat.add_assoc]

theorem cellAt_copyTo {b : Fin n → α} {offset : ℕ} {src : List α} (h : offset + src.length ≤ n) (i : ℕ) :
    cellAt (copyTo b offset src) i =
      if offset ≤ i ∧ i < offset + src.length then src.getD (i - offset) default else cellAt b i := by
  unfold cellAt copyTo
  by_cases hi : i < n
  · simp only [dif_pos hi]
  · rw [dif_neg hi, dif_neg hi, if_neg (by omega)]

/-- What was written is read back. -/
theorem cellsAt_copyTo {b : Fin n → α} {offset len : ℕ} {src : List α} (h : offset + len ≤ n) (hlen : src.length = len) :
    cellsAt (copyTo b offset src) offset len = src := by
  refine List.ext_getElem (by simp [hlen]) ?_
  intro i hi hi'
  simp only [cellsAt, List.getElem_map, List.getElem_range]
  rw [cellAt_copyTo (by omega), if_pos (by omega), Nat.add_sub_cancel_left, List.getD_eq_getElem _ _ hi']

/-- A read elsewhere. -/
theorem cellsAt_copyTo_of_disjoint {b : Fin n → α} {offset off len : ℕ} {src : List α} (h : offset + src.length ≤ n)
    (hd : offset + src.length ≤ off ∨ off + len ≤ offset) :
    cellsAt (copyTo b offset src) off len = cellsAt b off len := by
  refine List.map_congr_left ?_
  intro i hi
  have := List.mem_range.mp hi
  rw [cellAt_copyTo h, if_neg (by omega)]

theorem cellAt_copyTo_of_disjoint {b : Fin n → α} {offset i : ℕ} {src : List α} (h : offset + src.length ≤ n)
    (hd : offset + src.length ≤ i ∨ i < offset) : cellAt (copyTo b offset src) i = cellAt b i := by
  rw [cellAt_copyTo h, if_neg (by omega)]

end Rmdb.Lib
