import Mathlib.Data.List.Basic
import Mathlib.Algebra.GroupWithZero.Nat
import Mathlib.Algebra.Order.BigOperators.Group.List

/-!
# Frames in a file

Records written one after another, each as a block of its own length, and the file cut off
at some place. `fits` are the records that lie wholly inside what is left: those before the
first that is cut.
-/

namespace Rmdb.Lib

universe u

variable {R : Type u} (len : R → ℕ)

/-- The records that lie wholly in the first `n` cells. -/
def fits : ℕ → List R → List R
  | _, [] => []
  | n, r :: rs => if len r ≤ n then r :: fits (n - len r) rs else []

/-- The cells that records take. -/
def total (rs : List R) : ℕ := (rs.map len).sum

variable {len}

@[simp] theorem total_nil : total len [] = 0 := rfl

@[simp] theorem total_cons (r : R) (rs : List R) : total len (r :: rs) = len r + total len rs := by
  simp [total]

@[simp] theorem total_append (rs rs' : List R) : total len (rs ++ rs') = total len rs + total len rs' := by
  simp [total]

theorem length_flatMap {α : Type u} {encode : R → List α} (h : ∀ r, (encode r).length = len r) (rs : List R) :
    (rs.flatMap encode).length = total len rs := by
  induction rs with
  | nil => rfl
  | cons r rs ih => simp [ih, h]

/-- Records that fit are followed by what fits behind them. -/
theorem fits_append {A : List R} (B : List R) {n : ℕ} (h : total len A ≤ n) :
    fits len n (A ++ B) = A ++ fits len (n - total len A) B := by
  induction A generalizing n with
  | nil => simp
  | cons r A ih =>
    rw [total_cons] at h
    rw [List.cons_append, fits, if_pos (by omega), ih (by omega), total_cons, List.cons_append]
    congr 3
    omega

/-- Room behind the records changes nothing. -/
theorem fits_min_total (n : ℕ) (rs : List R) : fits len (min n (total len rs)) rs = fits len n rs := by
  rcases le_total n (total len rs) with h | h
  · rw [min_eq_left h]
  · have hall : ∀ k, total len rs ≤ k → fits len k rs = rs := fun k hk => by
      have := fits_append [] hk
      rwa [List.append_nil, fits, List.append_nil] at this
    rw [min_eq_right h, hall _ le_rfl, hall _ h]

theorem total_fits_le (rs : List R) (n : ℕ) : total len (fits len n rs) ≤ n := by
  induction rs generalizing n with
  | nil => simp [fits]
  | cons r rs ih =>
    rw [fits]
    split
    · have := ih (n - len r)
      rw [total_cons]
      omega
    · simp

/-- All records fit, or what fits leaves less room than the longest record takes. -/
theorem lt_total_fits {rs : List R} {n M : ℕ} (hM : ∀ r ∈ rs, len r ≤ M) :
    fits len n rs = rs ∨ n < total len (fits len n rs) + M := by
  induction rs generalizing n with
  | nil => exact Or.inl rfl
  | cons r rs ih =>
    rw [fits]
    split
    · rcases ih (n := n - len r) fun r' hr' => hM r' (List.mem_cons_of_mem _ hr') with h | h
      · exact Or.inl (by rw [h])
      · refine Or.inr ?_
        rw [total_cons]
        omega
    · have := hM r List.mem_cons_self
      refine Or.inr ?_
      rw [total_nil]
      omega

end Rmdb.Lib
