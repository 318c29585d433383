import Rmdb.Lib.Buffer

/-!
# Files with a default past their end

A file is a list of cells that can be read and written anywhere: what is past its end reads
as the default, and a write there fills the gap. `peek` and `view` read, `poke` writes.
What was written is read back (`view_poke`), other cells are left alone (`peek_poke`), and
two writes in a row are one (`poke_poke`). Two files are the same if they have the same
length and the same cells (`ext_peek`).
-/

namespace Rmdb.Lib

universe u

variable {α : Type u} [Inhabited α]

/-- The cell at a position. -/
def peek (file : List α) (i : ℕ) : α := file[i]?.getD default

/-- The cells from an offset on. -/
def view (file : List α) (offset len : ℕ) : List α := (List.range len).map fun i => peek file (offset + i)

/-- Write `src` at the offset. -/
def poke (file : List α) (offset : ℕ) (src : List α) : List α :=
  if src = [] then file else put (file ++ List.replicate (offset - file.length) default) offset src

variable {file src : List α} {offset : ℕ}

theorem peek_of_le {i : ℕ} (h : file.length ≤ i) : peek file i = default := by
  rw [peek, List.getElem?_eq_none h, Option.getD_none]

theorem ext_peek {file' : List α} (hlen : file'.length = file.length) (h : ∀ i, peek file' i = peek file i) : file' = file := by
  refine List.ext_getElem hlen ?_
  intro i hi hi'
  have hcell := h i
  rwa [peek, peek, List.getElem?_eq_getElem hi, List.getElem?_eq_getElem hi'] at hcell

theorem peek_append_replicate (file : List α) (n i : ℕ) : peek (file ++ List.replicate n default) i = peek file i := by
  by_cases hi : i < file.length
  · rw [peek, List.getElem?_append_left hi, peek]
  · rw [peek_of_le (Nat.le_of_not_lt hi), peek, List.getElem?_append_right (Nat.le_of_not_lt hi), List.getElem?_replicate]
    split <;> rfl

theorem length_poke (file : List α) (offset : ℕ) (src : List α) :
    (poke file offset src).length = if src = [] then file.length else max file.length (offset + src.length) := by
  rw [poke]
  split
  · rfl
  · simp only [put, List.length_append, List.length_take, List.length_drop, List.length_replicate]
    omega

/-- **A write** changes the cells that it is about. -/
theorem peek_poke (file : List α) (offset : ℕ) (src : List α) (i : ℕ) : peek (poke file offset src) i =
    if offset ≤ i ∧ i < offset + src.length then peek src (i - offset) else peek file i := by
  rw [poke]
  split
  · rename_i hnil
    rw [hnil, if_neg (by simp)]
  · have htake : ((file ++ List.replicate (offset - file.length) default).take offset).length = offset := by
      simp only [List.length_take, List.length_append, List.length_replicate]
      omega
    rw [← peek_append_replicate file (offset - file.length) i, peek, put]
    by_cases h1 : i < offset
    · rw [List.append_assoc, List.getElem?_append_left (by omega), List.getElem?_take, if_pos h1, if_neg (by omega), peek]
    · rw [List.append_assoc, List.getElem?_append_right (by omega), htake]
      by_cases h2 : i < offset + src.length
      · rw [List.getElem?_append_left (by omega), if_pos ⟨by omega, h2⟩, peek]
      · rw [List.getElem?_append_right (by omega), List.getElem?_drop, if_neg (by omega), peek]
        congr 2
        omega

/-- What is written where the last write ended is written with it. -/
theorem poke_poke (file : List α) (offset : ℕ) (src src' : List α) :
    poke (poke file offset src) (offset + src.length) src' = poke file offset (src ++ src') := by
  refine ext_peek ?_ ?_
  · rw [length_poke, length_poke, length_poke, List.length_append]
    by_cases h : src = []
    · by_cases h' : src' = []
      · simp [h, h']
      · simp [h, h']
    · by_cases h' : src' = []
      · simp [h, h']
      · simp only [h, h', List.append_eq_nil_iff, and_self, if_false]
        omega
  · intro i
    rw [peek_poke, peek_poke, peek_poke, List.length_append]
    by_cases h1 : i < offset
    · rw [if_neg (by omega), if_neg (by omega), if_neg (by omega)]
    · by_cases h2 : i < offset + src.length
      · rw [if_neg (by omega), if_pos (by omega), if_pos (by omega), peek, peek, List.getElem?_append_left (by omega)]
      · by_cases h3 : i < offset + src.length + src'.length
        · rw [if_pos (by omega), if_pos (by omega), peek, peek, List.getElem?_append_right (by omega)]
          congr 2
          omega
        · rw [if_neg (by omega), if_neg (by omega), if_neg (by omega)]

@[simp] theorem length_view (file : List α) (offset len : ℕ) : (view file offset len).length = len := by
  rw [view, List.length_map, List.length_range]

theorem view_add (file : List α) (offset len len' : ℕ) :
    view file offset (len + len') = view file offset len ++ view file (offset + len) len' := by
  simp only [view, List.range_add, List.map_append, List.map_map, Function.comp_def, Nat.add_assoc]

/-- Inside the file a view is a part of the list. -/
theorem view_eq_take {len : ℕ} (h : offset + len ≤ file.length) : view file offset len = (file.drop offset).take len := by
  refine List.ext_getElem (by rw [length_view, List.length_take, List.length_drop]; omega) ?_
  intro i hi hi'
  rw [length_view] at hi
  simp only [view, List.getElem_map, List.getElem_range, List.getElem_take, List.getElem_drop, peek]
  rw [List.getElem?_eq_getElem (by omega), Option.getD_some]

/-- Past the end there are defaults. -/
theorem view_past (h : file.length ≤ offset) (len : ℕ) : view file offset len = List.replicate len default := by
  refine List.eq_replicate_iff.mpr ⟨length_view .., ?_⟩
  intro x hx
  obtain ⟨i, -, rfl⟩ := List.mem_map.mp hx
  exact peek_of_le (by omega)

/-- **What was written** is read back. -/
theorem view_poke (file : List α) (offset : ℕ) (src : List α) : view (poke file offset src) offset src.length = src := by
  refine List.ext_getElem (length_view ..) ?_
  intro i hi hi'
  simp only [view, List.getElem_map, List.getElem_range]
  rw [peek_poke, if_pos (by omega), Nat.add_sub_cancel_left, peek, List.getElem?_eq_getElem hi', Option.getD_some]

end Rmdb.Lib
