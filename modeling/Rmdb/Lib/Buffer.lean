import Mathlib.Data.List.Basic

/-!
# Buffers

A buffer is a list of cells. `put` writes a block at an offset, as `memcpy` does, and
`readBlock` reads one, if it lies inside the buffer. Blocks laid out one after another are
found again at the offset where the ones before them end. A block inside the buffer
replaces its cells and leaves the others (`getElem?_put`).
-/

namespace Rmdb.Lib

universe u

variable {α : Type u}

/-- Write `src` at the offset. -/
def put (dest : List α) (offset : ℕ) (src : List α) : List α :=
  dest.take offset ++ src ++ dest.drop (offset + src.length)

/-- Read `n` cells at the offset. -/
def readBlock (src : List α) (offset n : ℕ) : Option (List α) :=
  if offset + n ≤ src.length then some ((src.drop offset).take n) else none

/-- A block is written behind what is there, over as much of the rest. -/
theorem put_append {A B src : List α} {offset : ℕ} (h : offset = A.length) :
    put (A ++ B) offset src = (A ++ src) ++ B.drop src.length := by
  subst h
  simp [put, List.drop_append]

theorem put_zero (B src : List α) : put B 0 src = src ++ B.drop src.length := by
  simp [put]

/-- A block is read where it lies. -/
theorem readBlock_append {A B block src : List α} {offset n : ℕ} (hsrc : src = A ++ (block ++ B)) (ho : offset = A.length)
    (hn : n = block.length) : readBlock src offset n = some block := by
  subst hsrc ho hn
  simp [readBlock]

theorem getElem?_put {dest src : List α} {offset : ℕ} (h : offset + src.length ≤ dest.length) (i : ℕ) :
    (put dest offset src)[i]? = if offset ≤ i ∧ i < offset + src.length then src[i - offset]? else dest[i]? := by
  unfold put
  have htake : (dest.take offset).length = offset := by
    rw [List.length_take]
    omega
  by_cases h1 : i < offset
  · rw [List.append_assoc, List.getElem?_append_left (by omega), List.getElem?_take, if_pos h1, if_neg (by omega)]
  · rw [List.append_assoc, List.getElem?_append_right (by omega), htake]
    by_cases h2 : i < offset + src.length
    · rw [List.getElem?_append_left (by omega), if_pos ⟨by omega, h2⟩]
    · rw [List.getElem?_append_right (by omega), List.getElem?_drop, if_neg (by omega)]
      congr 1
      omega

theorem length_put {dest src : List α} {offset : ℕ} (h : offset + src.length ≤ dest.length) :
    (put dest offset src).length = dest.length := by
  unfold put
  simp only [List.length_append, List.length_take, List.length_drop]
  omega

end Rmdb.Lib
