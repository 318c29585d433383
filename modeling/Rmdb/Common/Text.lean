import Mathlib.Data.List.Induction
import Rmdb.Parser.Lex

/-!
# Numbers as text

`std::to_string` and `std::setw`, and numbers of a fixed number of decimal digits: they are
read back as they are written (`readDecimal_decimal`, `readDecimal_cases`), and in the order of
texts they are in the order of numbers (`decimal_lt_iff`).
-/

namespace Rmdb

open Rmdb.Parser (bytes)

/-- `std::to_string` of an integer. -/
def toText (n : ℤ) : Bytes := bytes (toString n)

/-- `std::setw` with this `std::setfill`. -/
def setw (fill : UInt8) (width : ℕ) (str : Bytes) : Bytes := List.replicate (width - str.length) fill ++ str

/-- A digit. -/
def digitByte (d : ℕ) : UInt8 := UInt8.ofNat (48 + d)

/-- A number in so many digits. -/
def decimal : ℕ → ℕ → Bytes
  | 0, _ => []
  | w + 1, n => decimal w (n / 10) ++ [digitByte (n % 10)]

/-- One more character of a number; `-1` once there was one that is no digit. -/
def readDigit (result : ℤ) (ch : UInt8) : ℤ :=
  if result < 0 ∨ ch.toNat < 48 ∨ 57 < ch.toNat then -1 else result * 10 + (ch.toNat - 48)

/-- The number that is written in digits, or `-1`. -/
def readDecimal (text : Bytes) : ℤ := text.foldl readDigit 0

/-! ### Reading -/

theorem length_decimal (w n : ℕ) : (decimal w n).length = w := by
  induction w generalizing n with
  | zero => rfl
  | succ w ih => rw [decimal, List.length_append, ih, List.length_singleton]

theorem toNat_digitByte {d : ℕ} (h : d < 10) : (digitByte d).toNat = 48 + d := by
  rw [digitByte, UInt8.toNat_ofNat']
  exact Nat.mod_eq_of_lt (by omega)

theorem readDigit_digitByte {result : ℤ} {d : ℕ} (hresult : 0 ≤ result) (h : d < 10) :
    readDigit result (digitByte d) = result * 10 + d := by
  rw [readDigit, toNat_digitByte h, if_neg (by omega)]
  omega

theorem readDecimal_concat (text : Bytes) (ch : UInt8) : readDecimal (text ++ [ch]) = readDigit (readDecimal text) ch := by
  rw [readDecimal, List.foldl_append]
  rfl

/-- **A number is read back.** -/
theorem readDecimal_decimal {w n : ℕ} (h : n < 10 ^ w) : readDecimal (decimal w n) = n := by
  induction w generalizing n with
  | zero =>
    obtain rfl : n = 0 := by omega
    rfl
  | succ w ih =>
    have hdiv : n / 10 < 10 ^ w := by
      rw [Nat.pow_succ] at h
      omega
    rw [decimal, readDecimal_concat, ih hdiv, readDigit_digitByte (Int.natCast_nonneg _) (Nat.mod_lt _ (by decide))]
    omega

/-- **What is read** is written in digits. -/
theorem readDecimal_cases (text : Bytes) : readDecimal text = -1 ∨
    ∃ n : ℕ, n < 10 ^ text.length ∧ readDecimal text = n ∧ text = decimal text.length n := by
  induction text using List.reverseRecOn with
  | nil => exact .inr ⟨0, Nat.one_pos, rfl, rfl⟩
  | append_singleton text ch ih =>
    rw [readDecimal_concat]
    rcases ih with h | ⟨n, hn, h, htext⟩
    · left
      rw [h]
      rfl
    · rw [h, readDigit]
      split
      · exact .inl rfl
      · rename_i hdigit
        have hlen : (text ++ [ch]).length = text.length + 1 := List.length_append
        have hch : ch = digitByte (ch.toNat - 48) := by
          apply UInt8.toNat_inj.mp
          rw [toNat_digitByte (by omega)]
          omega
        refine .inr ⟨n * 10 + (ch.toNat - 48), ?_, by omega, ?_⟩
        · rw [hlen, Nat.pow_succ]
          omega
        · have hdiv : (n * 10 + (ch.toNat - 48)) / 10 = n := by omega
          have hmod : (n * 10 + (ch.toNat - 48)) % 10 = ch.toNat - 48 := by omega
          rw [hlen, decimal, hdiv, hmod, ← htext, ← hch]

theorem decimal_inj {w n m : ℕ} (hn : n < 10 ^ w) (hm : m < 10 ^ w) : decimal w n = decimal w m ↔ n = m := by
  constructor
  · intro h
    have hread := congrArg readDecimal h
    rw [readDecimal_decimal hn, readDecimal_decimal hm] at hread
    exact_mod_cast hread
  · rintro rfl
    rfl

/-! ### The order of texts -/

/-- Texts of the same length are compared first. -/
theorem append_lt_append_iff {a b c d : Bytes} (h : a.length = b.length) :
    a ++ c < b ++ d ↔ a < b ∨ a = b ∧ c < d := by
  induction a generalizing b with
  | nil =>
    obtain rfl : b = [] := List.eq_nil_of_length_eq_zero h.symm
    constructor
    · exact fun hlt => .inr ⟨rfl, hlt⟩
    · rintro (hlt | ⟨-, hlt⟩)
      · exact absurd hlt (List.lt_irrefl [])
      · exact hlt
  | cons x a ih =>
    cases b with
    | nil => cases h
    | cons y b =>
      rw [List.cons_append, List.cons_append, List.cons_lt_cons_iff, List.cons_lt_cons_iff, ih (Nat.succ.inj h),
        List.cons.injEq]
      tauto

theorem singleton_lt_iff {x y : UInt8} : [x] < [y] ↔ x.toNat < y.toNat := by
  rw [List.cons_lt_cons_iff, UInt8.lt_iff_toNat_lt]
  constructor
  · rintro (h | ⟨-, h⟩)
    · exact h
    · exact absurd h (List.lt_irrefl [])
  · exact .inl

/-- **The order of numbers** is that of their texts. -/
theorem decimal_lt_iff {w n m : ℕ} (hn : n < 10 ^ w) (hm : m < 10 ^ w) : decimal w n < decimal w m ↔ n < m := by
  induction w generalizing n m with
  | zero =>
    have hzero : n = 0 ∧ m = 0 := by omega
    rw [hzero.1, hzero.2]
    exact iff_of_false (List.lt_irrefl []) (lt_irrefl 0)
  | succ w ih =>
    rw [Nat.pow_succ] at hn hm
    have hn' : n / 10 < 10 ^ w := by omega
    have hm' : m / 10 < 10 ^ w := by omega
    rw [decimal, decimal, append_lt_append_iff (by rw [length_decimal, length_decimal]), ih hn' hm', decimal_inj hn' hm',
      singleton_lt_iff, toNat_digitByte (Nat.mod_lt _ (by decide)), toNat_digitByte (Nat.mod_lt _ (by decide))]
    omega

/-! ### Writing -/

theorem decimal_zero (w : ℕ) : decimal w 0 = List.replicate w 48 := by
  induction w with
  | zero => rfl
  | succ w ih =>
    rw [decimal, Nat.zero_div, ih, List.replicate_succ']
    rfl

theorem toText_natCast (n : ℕ) : toText n = (Nat.toDigits 10 n).map fun c => UInt8.ofNat c.toNat := by
  have hlist : (toString (n : ℤ)).toList = Nat.toDigits 10 n := Nat.toList_repr
  rw [toText, bytes, hlist]

theorem digitChar_byte {d : ℕ} (h : d < 10) : UInt8.ofNat (Nat.digitChar d).toNat = digitByte d := by
  revert d
  decide

theorem toText_of_lt {n : ℕ} (h : n < 10) : toText n = [digitByte n] := by
  rw [toText_natCast, Nat.toDigits_of_lt_base h, List.map_singleton, digitChar_byte h]

theorem toText_of_ge {n : ℕ} (h : 10 ≤ n) : toText n = toText (n / 10 : ℕ) ++ [digitByte (n % 10)] := by
  rw [toText_natCast, toText_natCast, Nat.toDigits_eq_if (by decide), if_neg (not_lt.mpr h), List.map_append,
    List.map_singleton, digitChar_byte (Nat.mod_lt _ (by decide))]

/-- **`std::setw` with zeros** writes a number in its digits. -/
theorem setw_toText {w n : ℕ} (hw : 0 < w) (h : n < 10 ^ w) : setw 48 w (toText n) = decimal w n := by
  induction w generalizing n with
  | zero => exact absurd hw (lt_irrefl 0)
  | succ w ih =>
    rcases lt_or_ge n 10 with hlt | hge
    · have hdiv : n / 10 = 0 := by omega
      have hmod : n % 10 = n := by omega
      rw [setw, toText_of_lt hlt, decimal, hdiv, hmod, decimal_zero]
      rfl
    · have hdiv : n / 10 < 10 ^ w := by
        rw [Nat.pow_succ] at h
        omega
      have hpos : 0 < w := by
        rcases Nat.eq_zero_or_pos w with rfl | hpos
        · omega
        · exact hpos
      rw [decimal, ← ih hpos hdiv, setw, setw, toText_of_ge hge, List.length_append, List.length_singleton,
        Nat.add_sub_add_right, List.append_assoc]

end Rmdb
