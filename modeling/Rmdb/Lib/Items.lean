import Rmdb.Lib.Block

/-!
# Items in a block

An array of items of one size, as it lies in a block: `items` reads it, item by item, and
`chunks` cuts a list of cells into items. Items that are copied into a block are read back
(`items_copyTo`), and items elsewhere stay (`items_copyTo_of_disjoint`).
-/

namespace Rmdb.Lib

universe u

variable {α : Type u} {len : ℕ}

/-- Cut a list into items. -/
def chunks (len : ℕ) : ℕ → List α → List (List α)
  | 0, _ => []
  | count + 1, cells => cells.take len :: chunks len count (cells.drop len)

@[simp] theorem length_chunks (len count : ℕ) (cells : List α) : (chunks len count cells).length = count := by
  induction count generalizing cells with
  | zero => rfl
  | succ count ih => rw [chunks, List.length_cons, ih]

theorem chunks_one {cells : List α} (h : cells.length = len) : chunks len 1 cells = [cells] := by
  rw [chunks, chunks, List.take_of_length_le (Nat.le_of_eq h)]

theorem chunks_append {count : ℕ} (count' : ℕ) {A : List α} (B : List α) (h : A.length = count * len) :
    chunks len (count + count') (A ++ B) = chunks len count A ++ chunks len count' B := by
  induction count generalizing A with
  | zero =>
    obtain rfl : A = [] := List.eq_nil_of_length_eq_zero (by rw [h, Nat.zero_mul])
    rw [Nat.zero_add, List.nil_append, chunks, List.nil_append]
  | succ count ih =>
    rw [Nat.succ_mul] at h
    have hdrop : (A.drop len).length = count * len := by
      rw [List.length_drop]
      omega
    rw [Nat.succ_add, chunks, chunks, List.cons_append, List.take_append_of_le_length (by omega),
      List.drop_append_of_le_length (by omega), ih hdrop]

variable [Inhabited α] {n : ℕ} {b : Fin n → α} {base count : ℕ}

/-- Move cells within a block, as `memmove` does. -/
def moveTo (b : Fin n → α) (dest src len : ℕ) : Fin n → α := copyTo b dest (cellsAt b src len)

theorem copyTo_nil (b : Fin n → α) (offset : ℕ) : copyTo b offset [] = b :=
  funext fun _ => if_neg fun h => absurd (Nat.lt_of_le_of_lt h.1 h.2) (Nat.lt_irrefl _)

theorem moveTo_zero (b : Fin n → α) (dest src : ℕ) : moveTo b dest src 0 = b := copyTo_nil b dest

/-- Cells that are moved to where they are. -/
theorem moveTo_self (b : Fin n → α) (offset len : ℕ) : moveTo b offset offset len = b := by
  funext i
  unfold moveTo copyTo
  rw [length_cellsAt]
  split
  · rename_i hi
    rw [List.getD_eq_getElem _ _ (by rw [length_cellsAt]; omega)]
    simp only [cellsAt, List.getElem_map, List.getElem_range]
    rw [Nat.add_sub_cancel' hi.1, cellAt, dif_pos i.2]
  · rfl

/-- The items of an array. -/
def items (b : Fin n → α) (base len count : ℕ) : List (List α) := (List.range count).map fun i => cellsAt b (base + i * len) len

@[simp] theorem length_items (b : Fin n → α) (base len count : ℕ) : (items b base len count).length = count := by
  rw [items, List.length_map, List.length_range]

theorem items_add (b : Fin n → α) (base len count count' : ℕ) :
    items b base len (count + count') = items b base len count ++ items b (base + count * len) len count' := by
  simp only [items, List.range_add, List.map_append, List.map_map, Function.comp_def, Nat.add_mul, Nat.add_assoc]

theorem items_one (b : Fin n → α) (base len : ℕ) : items b base len 1 = [cellsAt b base len] := by
  rw [items, List.range_one, List.map_singleton, Nat.zero_mul, Nat.add_zero]

/-- The items are cut out of the cells of the array. -/
theorem items_eq_chunks (b : Fin n → α) (base len count : ℕ) :
    items b base len count = chunks len count (cellsAt b base (count * len)) := by
  induction count with
  | zero => rfl
  | succ count ih =>
    rw [items_add, items_one, Nat.succ_mul, cellsAt_add, chunks_append 1 _ (length_cellsAt ..), ← ih,
      chunks_one (length_cellsAt ..)]

theorem items_congr {b' : Fin n → α} {base' : ℕ} (h : cellsAt b base (count * len) = cellsAt b' base' (count * len)) :
    items b base len count = items b' base' len count := by
  rw [items_eq_chunks, items_eq_chunks, h]

/-- **Items that are copied** into the block. -/
theorem items_copyTo {src : List α} (hfits : base + count * len ≤ n) (hsrc : src.length = count * len) :
    items (copyTo b base src) base len count = chunks len count src := by
  rw [items_eq_chunks, cellsAt_copyTo hfits hsrc]

/-- **Items elsewhere.** -/
theorem items_copyTo_of_disjoint {offset : ℕ} {src : List α} (hfits : offset + src.length ≤ n)
    (hd : offset + src.length ≤ base ∨ base + count * len ≤ offset) :
    items (copyTo b offset src) base len count = items b base len count :=
  items_congr (cellsAt_copyTo_of_disjoint hfits hd)

/-- **Cells elsewhere** stay where they are when others are moved. -/
theorem cellsAt_moveTo_of_disjoint {dest src m offset k : ℕ} (hfits : dest + m ≤ n) (hd : dest + m ≤ offset ∨ offset + k ≤ dest) :
    cellsAt (moveTo b dest src m) offset k = cellsAt b offset k :=
  cellsAt_copyTo_of_disjoint (by rwa [length_cellsAt]) (by rwa [length_cellsAt])

end Rmdb.Lib
