import Mathlib.Algebra.BigOperators.Group.List.Basic
import Mathlib.Algebra.Order.Group.Unbundled.Int
import Mathlib.Algebra.Order.Ring.Int
import Mathlib.Data.List.Induction
import Mathlib.Data.Nat.Size

/-!
# Integers rounded to some bits

A floating-point number with `p` bits of precision holds every integer up to `2 ^ p`; of the
larger ones it holds some, and an integer between two of them is rounded to the nearer one,
and to the even one if both are as near (`roundInt`). A sum of integers that is rounded after
every addition (`roundedSum`) is exact if no partial sum is above `2 ^ p`
(`roundedSum_eq_sum`).
-/

namespace Rmdb.Lib

/-- A natural number rounded to `p` bits, ties to even. -/
def roundNat (p n : ℕ) : ℕ :=
  let unit := 2 ^ (n.size - p)
  let q := n / unit
  let r := n % unit
  if unit < 2 * r ∨ 2 * r = unit ∧ q % 2 = 1 then (q + 1) * unit else q * unit

/-- An integer rounded to `p` bits, ties to even. -/
def roundInt (p : ℕ) (x : ℤ) : ℤ := x.sign * roundNat p x.natAbs

/-- The sum of a list, rounded after every addition. -/
def roundedSum (p : ℕ) (l : List ℤ) : ℤ := l.foldl (fun sum x => roundInt p (sum + x)) 0

/-- What is a multiple of the unit is not rounded. -/
theorem roundNat_of_dvd {p n : ℕ} (h : 2 ^ (n.size - p) ∣ n) : roundNat p n = n := by
  have hpos : 0 < 2 ^ (n.size - p) := Nat.two_pow_pos _
  have hr : n % 2 ^ (n.size - p) = 0 := Nat.mod_eq_zero_of_dvd h
  have hdown : ¬ (2 ^ (n.size - p) < 2 * (n % 2 ^ (n.size - p)) ∨
      2 * (n % 2 ^ (n.size - p)) = 2 ^ (n.size - p) ∧ n / 2 ^ (n.size - p) % 2 = 1) := by
    rw [hr]
    omega
  rw [roundNat, if_neg hdown]
  exact Nat.div_mul_cancel h

theorem roundNat_of_le {p n : ℕ} (hp : 0 < p) (h : n ≤ 2 ^ p) : roundNat p n = n := by
  apply roundNat_of_dvd
  rcases Nat.lt_or_eq_of_le h with hlt | rfl
  · rw [Nat.sub_eq_zero_of_le (Nat.size_le.mpr hlt), Nat.pow_zero]
    exact one_dvd n
  · rw [Nat.size_pow]
    exact Nat.pow_dvd_pow 2 (by omega)

theorem roundInt_of_le {p : ℕ} {x : ℤ} (hp : 0 < p) (h : |x| ≤ 2 ^ p) : roundInt p x = x := by
  have hnat : x.natAbs ≤ 2 ^ p := by
    rw [Int.abs_eq_natAbs] at h
    exact_mod_cast h
  rw [roundInt, roundNat_of_le hp hnat]
  exact Int.sign_mul_natAbs x

theorem roundedSum_concat (p : ℕ) (l : List ℤ) (x : ℤ) : roundedSum p (l ++ [x]) = roundInt p (roundedSum p l + x) := by
  rw [roundedSum, List.foldl_append]
  rfl

/-- **A sum is exact** as long as no partial sum is too large. -/
theorem roundedSum_eq_sum {p : ℕ} {l : List ℤ} (hp : 0 < p) (h : ∀ l', l' <+: l → |l'.sum| ≤ 2 ^ p) : roundedSum p l = l.sum := by
  induction l using List.reverseRecOn with
  | nil => rfl
  | append_singleton l x ih =>
    have hsum : (l ++ [x]).sum = l.sum + x := by rw [List.sum_append, List.sum_singleton]
    have hle := h _ (List.prefix_refl _)
    rw [hsum] at hle
    rw [roundedSum_concat, ih fun l' hl' => h l' (hl'.trans (List.prefix_append l [x])), roundInt_of_le hp hle, hsum]

end Rmdb.Lib
