import Mathlib.Order.Defs.Unbundled
import Mathlib.Order.Lattice
import Mathlib.Data.Int.Order.Basic

/-!
# Three-way comparisons

A comparison in the manner of C returns an integer: negative, zero or positive
as its first operand lies below, beside or above its second. This module says
when such a function is an order (`ThreeWay`), how comparisons are combined
column after column (`ThreeWay.lex`), why "below" is a strict weak order
(`ThreeWay.isStrictWeakOrder`), and how one that tells every two values
apart becomes a linear order (`ThreeWay.linearOrder`).
-/

namespace Rmdb.Lib

universe u v

variable {α : Type u} {β : Type v}

/-- A comparison that is a total preorder: exchanging the operands exchanges the
sign, and "not above" is transitive. -/
structure ThreeWay (c : α → α → ℤ) : Prop where
  /-- Exchanging the operands negates the result. -/
  neg : ∀ a b, c b a = -c a b
  /-- "Not above" is transitive. -/
  trans : ∀ {a b d}, c a b ≤ 0 → c b d ≤ 0 → c a d ≤ 0

/-- `-1`, `0` or `1` as `a` is less than, equal to or greater than `b`. -/
def sign3 [LT α] [DecidableLT α] (a b : α) : ℤ := if a < b then -1 else if b < a then 1 else 0

/-- Compare by `c`, and where `c` does not decide by `d`. -/
def lex3 (c d : α → α → ℤ) (a b : α) : ℤ := if c a b ≠ 0 then c a b else d a b

namespace ThreeWay

variable {c d : α → α → ℤ}

theorem self (h : ThreeWay c) (a : α) : c a a = 0 := by
  have := h.neg a a
  omega

theorem zero_symm (h : ThreeWay c) {a b : α} (hab : c a b = 0) : c b a = 0 := by
  have := h.neg a b
  omega

theorem of_sign3 [LinearOrder α] : ThreeWay (sign3 : α → α → ℤ) where
  neg a b := by
    unfold sign3
    rcases lt_trichotomy a b with h | h | h
    · simp [h, h.not_gt]
    · simp [h]
    · simp [h, h.not_gt]
  trans {a b d} hab hbd := by
    have key : ∀ x y : α, sign3 x y ≤ 0 ↔ x ≤ y := by
      intro x y
      unfold sign3
      rcases lt_trichotomy x y with h | h | h
      · simp [h, h.le]
      · simp [h]
      · simp [h, h.not_gt]
    rw [key] at hab hbd ⊢
    exact hab.trans hbd

/-- A comparison of images is an order of the originals. -/
theorem comap (h : ThreeWay c) (f : β → α) : ThreeWay fun a b => c (f a) (f b) where
  neg a b := h.neg (f a) (f b)
  trans hab hbd := h.trans hab hbd

/-- A comparison turned round. -/
theorem flip (h : ThreeWay c) : ThreeWay fun a b => c b a where
  neg a b := h.neg b a
  trans hab hbd := h.trans hbd hab

/-- "Below" is a strict weak order. -/
theorem isStrictWeakOrder (h : ThreeWay c) : IsStrictWeakOrder α fun a b => c a b < 0 where
  irrefl a hlt := absurd (h.self a) (ne_of_lt hlt)
  trans a b d hab hbd := by
    refine lt_of_le_of_ne (h.trans hab.le hbd.le) ?_
    intro hzero
    -- were the outer two the same, the middle one would not be above the first
    have hba := h.trans hbd.le (le_of_eq (h.zero_symm hzero))
    have hneg := h.neg a b
    omega
  incomp_trans a b d hab hbd := by
    have hab' := h.neg a b
    have hbd' := h.neg b d
    have had' := h.neg a d
    have hle : c a d ≤ 0 := h.trans (b := b) (by omega) (by omega)
    have hge : c d a ≤ 0 := h.trans (b := b) (by omega) (by omega)
    omega

/-- The comparison that never decides. -/
theorem const_zero : ThreeWay fun _ _ : α => (0 : ℤ) where
  neg _ _ := rfl
  trans _ _ := le_refl _

/-- Comparing by one order and then by another is an order. -/
theorem lex (hc : ThreeWay c) (hd : ThreeWay d) : ThreeWay (lex3 c d) where
  neg a b := by
    unfold lex3
    by_cases h : c a b = 0
    · simp only [hc.zero_symm h, h, ne_eq, not_true_eq_false, if_false]
      exact hd.neg a b
    · have h' : c b a ≠ 0 := fun h0 => h (hc.zero_symm h0)
      simp only [ne_eq, h, h', not_false_eq_true, if_true]
      exact hc.neg a b
  trans {a b e} hab hbe := by
    have le_of : ∀ {x y}, lex3 c d x y ≤ 0 → c x y ≤ 0 := by
      intro x y h
      unfold lex3 at h
      by_cases h0 : c x y = 0
      · exact h0.le
      · simpa [h0] using h
    have hcae := hc.trans (le_of hab) (le_of hbe)
    unfold lex3
    by_cases h0 : c a e = 0
    · simp only [h0, ne_eq, not_true_eq_false, if_false]
      -- `a` and `e` compare equal, so the middle one does too, and `d` decides throughout
      have hea : c e a ≤ 0 := (hc.zero_symm h0).le
      have hba : c b a ≤ 0 := hc.trans (le_of hbe) hea
      have heb : c e b ≤ 0 := hc.trans hea (le_of hab)
      have hab0 : c a b = 0 := by
        have := hc.neg a b; have := le_of hab; omega
      have hbe0 : c b e = 0 := by
        have := hc.neg b e; have := le_of hbe; omega
      simp only [lex3, hab0, hbe0, ne_eq, not_true_eq_false, if_false] at hab hbe
      exact hd.trans hab hbe
    · simpa [h0] using hcae

/-- A comparison that tells every two values apart is a linear order. -/
@[reducible] def linearOrder (h : ThreeWay c) (sep : ∀ a b, c a b = 0 → a = b) : LinearOrder α where
  le a b := c a b ≤ 0
  lt a b := c a b < 0
  le_refl a := (h.self a).le
  le_trans a b e hab hbe := h.trans hab hbe
  le_antisymm a b hab hba := by
    refine sep a b ?_
    have := h.neg a b
    omega
  lt_iff_le_not_ge a b := by
    have := h.neg a b
    constructor
    · intro hab; exact ⟨by omega, by omega⟩
    · rintro ⟨h1, h2⟩; omega
  le_total a b := by
    have := h.neg a b
    show c a b ≤ 0 ∨ c b a ≤ 0
    omega
  toDecidableLE := fun a b => inferInstanceAs (Decidable (c a b ≤ 0))
  toDecidableLT := fun a b => inferInstanceAs (Decidable (c a b < 0))
  toDecidableEq := fun a b =>
    decidable_of_iff (c a b = 0) ⟨sep a b, fun e => e ▸ h.self a⟩
  min_def _ _ := rfl
  max_def _ _ := rfl

end ThreeWay

end Rmdb.Lib
