import Rmdb.Execution.Mirror

/-!
# Comparing values

The comparison of two columns as values: a number is a number, and of two strings the shorter one
is followed by zeros. `AbstractExecutor::compare` is given pointers to the two columns and looks at
as many bytes of both as the left-hand column has, so it compares the values only if it does not
matter what it misses of the right-hand string, or reads behind it (`comparesWhole_iff`).
-/

namespace Rmdb.Execution

open Lib

/-- The comparison of two values; zeros follow the shorter one of two strings. -/
def compareValues (type : ColType) (a b : Bytes) : ℤ :=
  compareCol type (max a.length b.length) (zeroPadded (max a.length b.length) a) (zeroPadded (max a.length b.length) b)

/-- The comparison at two pointers is that of the two columns, whatever the bytes there. -/
def ComparesWhole (type : ColType) (len len' : ℕ) (op : CompOp) : Prop :=
  ∀ a b : Bytes, len ≤ a.length → len' ≤ b.length →
    compare a b type len op = op.holds (compareValues type (a.take len) (b.take len'))

/-- The bytes that a number is read from. -/
def width : ColType → ℕ
  | .int | .float => 4
  | .bigint | .datetime => 8
  | .string => 0

theorem width_le {c : ColMeta} (h : c.LenOk) : width c.type ≤ c.len := by
  rw [ColMeta.LenOk] at h
  cases htype : c.type <;> simp only [htype] at h <;> simp [width, h]

theorem getD_take {n i : ℕ} (a : Bytes) (hi : i < n) : (a.take n).getD i 0 = a.getD i 0 := by
  rw [List.getD_eq_getElem?_getD, List.getElem?_take_of_lt hi, List.getD_eq_getElem?_getD]

/-- A number is compared by the bytes that it is read from. -/
theorem compareCol_congr_width {type : ColType} (hstring : type ≠ .string) (len len' : ℕ) {a b a' b' : Bytes}
    (ha : ∀ i < width type, a.getD i 0 = a'.getD i 0) (hb : ∀ i < width type, b.getD i 0 = b'.getD i 0) :
    compareCol type len a b = compareCol type len' a' b' := by
  cases type with
  | int => exact congrArg₂ sign3 (leInt_congr ha) (leInt_congr hb)
  | float =>
    have ha' : leNat 4 a = leNat 4 a' := leNat_congr ha
    have hb' : leNat 4 b = leNat 4 b' := leNat_congr hb
    rw [compareCol, compareCol, compareFloat, compareFloat, ha', hb']
  | bigint | datetime => exact congrArg₂ sign3 (leInt_congr ha) (leInt_congr hb)
  | string => exact absurd rfl hstring

theorem comparesWhole_of_ne_string {type : ColType} (hstring : type ≠ .string) {len len' : ℕ} (hlen : width type ≤ len)
    (hlen' : width type ≤ len') (op : CompOp) : ComparesWhole type len len' op := by
  intro a b _ _
  rw [compare, compareValues]
  refine congrArg op.holds (compareCol_congr_width hstring _ _ ?_ ?_)
  · intro i hi
    rw [getD_zeroPadded, getD_take a (hi.trans_le hlen)]
  · intro i hi
    rw [getD_zeroPadded, getD_take b (hi.trans_le hlen')]

/-! ### Strings -/

/-- Strings are compared by their first bytes, and then by the others. -/
theorem memcmp_add (n m : ℕ) (a b : Bytes) :
    memcmp (n + m) a b = if memcmp n a b ≠ 0 then memcmp n a b else memcmp m (a.drop n) (b.drop n) := by
  induction n generalizing a b with
  | zero => rw [Nat.zero_add, memcmp, if_neg (not_not.mpr rfl), List.drop_zero, List.drop_zero]
  | succ n ih =>
    rw [Nat.add_right_comm, memcmp_succ, memcmp_succ, ih, List.drop_tail, List.drop_tail]
    split_ifs <;> simp_all

theorem memcmp_zeros_le (n : ℕ) (b : Bytes) : memcmp n (List.replicate n 0) b ≤ 0 := by
  induction n generalizing b with
  | zero => exact le_refl _
  | succ n ih =>
    rw [memcmp_succ, List.replicate_succ, List.headD_cons, List.tail_cons]
    split_ifs with h
    · rw [sign3]
      split_ifs with hlt hgt
      · decide
      · exact absurd hgt (Nat.not_lt_zero _)
      · exact le_refl _
    · exact ih b.tail

theorem memcmp_zeros_ones (n : ℕ) : memcmp (n + 1) (List.replicate (n + 1) 0) (List.replicate (n + 1) 1) = -1 := rfl

theorem memcmp_take (n m : ℕ) (h : n ≤ m) (a b : Bytes) : memcmp n (a.take n) (b.take m) = memcmp n a b :=
  memcmp_congr (fun _ hi => getD_take a hi) fun _ hi => getD_take b (hi.trans_le h)

/-- The shorter one of two strings on the left. -/
theorem compareValues_string {a b : Bytes} (h : a.length ≤ b.length) : compareValues .string a b =
    if memcmp a.length a b ≠ 0 then memcmp a.length a b
    else memcmp (b.length - a.length) (List.replicate (b.length - a.length) 0) (b.drop a.length) := by
  have hpad : zeroPadded b.length b = b := by
    rw [zeroPadded, Nat.sub_self, List.replicate_zero, List.append_nil]
  have hfirst : memcmp a.length (zeroPadded b.length a) b = memcmp a.length a b :=
    memcmp_congr (fun i _ => getD_zeroPadded _ a i) fun _ _ => rfl
  have hrest : (zeroPadded b.length a).drop a.length = List.replicate (b.length - a.length) 0 := by
    rw [zeroPadded, List.drop_left]
  have hadd := memcmp_add a.length (b.length - a.length) (zeroPadded b.length a) b
  rw [Nat.add_sub_cancel' h, hfirst, hrest] at hadd
  rw [compareValues, max_eq_right h, compareCol, hpad, hadd]

theorem compareCol_neg (type : ColType) (len : ℕ) (a b : Bytes) : compareCol type len b a = -compareCol type len a b := by
  by_cases hfloat : type = .float
  · subst hfloat
    rw [compareCol, compareCol, compareFloat, compareFloat, Bool.or_comm]
    split_ifs
    · rfl
    · exact ThreeWay.of_sign3.neg _ _
  · exact (threeWay_compareCol hfloat len).neg a b

theorem compareValues_neg (type : ColType) (a b : Bytes) : compareValues type b a = -compareValues type a b := by
  rw [compareValues, compareValues, max_comm b.length, compareCol_neg]

theorem memcmp_prefix (a c : Bytes) : memcmp a.length a (a ++ c) = 0 :=
  memcmp_eq_zero_iff.mpr fun i hi => by
    rw [List.getD_eq_getElem?_getD, List.getD_eq_getElem?_getD, List.getElem?_append_left hi]

/-- A string and one that goes on behind it. -/
theorem compareValues_prefix (a c : Bytes) :
    compareValues .string a (a ++ c) = memcmp c.length (List.replicate c.length 0) c := by
  rw [compareValues_string (by simp), memcmp_prefix, if_neg (not_not.mpr rfl), List.drop_left, List.length_append,
    Nat.add_sub_cancel_left]

theorem memcmp_self (n : ℕ) (a : Bytes) : memcmp n a a = 0 := memcmp_eq_zero_iff.mpr fun _ _ => rfl

/-- The shorter string on the left: zeros, and as many zeros with ones behind them. -/
theorem ComparesWhole.op_of_shorter {len k : ℕ} {op : CompOp} (h : ComparesWhole .string len (len + (k + 1)) op) :
    op = .gt ∨ op = .le := by
  have hall := h (List.replicate len 0) (List.replicate len 0 ++ List.replicate (k + 1) 1) (by simp) (by simp)
  have hcode := memcmp_prefix (List.replicate len 0) (List.replicate (k + 1) 1)
  have hvalues := compareValues_prefix (List.replicate len 0) (List.replicate (k + 1) 1)
  rw [List.length_replicate] at hcode
  rw [List.length_replicate, memcmp_zeros_ones] at hvalues
  rw [compare, compareCol, hcode, List.take_of_length_le (by simp), List.take_of_length_le (by simp), hvalues] at hall
  cases op <;> simp_all [CompOp.holds]

/-- The longer string on the left: for every operator there are bytes behind the shorter one that matter. -/
theorem not_comparesWhole_longer {len k : ℕ} {op : CompOp} : ¬ ComparesWhole .string (len + (k + 1)) len op := by
  intro h
  -- two strings that are the same as far as the code looks
  have hsame := h (List.replicate len 0 ++ List.replicate (k + 1) 1) (List.replicate len 0 ++ List.replicate (k + 1) 1)
    (by simp) (by simp)
  -- and two of which only the code sees the difference
  have hbehind := h (List.replicate len 0 ++ List.replicate (k + 1) 0) (List.replicate len 0 ++ List.replicate (k + 1) 1)
    (by simp) (by simp)
  have htake : ∀ c : Bytes, (List.replicate len (0 : UInt8) ++ c).take len = List.replicate len 0 := fun c =>
    List.take_left' List.length_replicate
  have hwhole : ∀ x : UInt8, (List.replicate len 0 ++ List.replicate (k + 1) x).take (len + (k + 1)) =
      List.replicate len 0 ++ List.replicate (k + 1) x := fun x => List.take_of_length_le (by simp)
  have hvalues : ∀ x : UInt8, compareValues .string (List.replicate len 0 ++ List.replicate (k + 1) x) (List.replicate len 0) =
      -memcmp (k + 1) (List.replicate (k + 1) 0) (List.replicate (k + 1) x) := fun x => by
    rw [compareValues_neg, compareValues_prefix, List.length_replicate]
  have hcode : memcmp (len + (k + 1)) (List.replicate len 0 ++ List.replicate (k + 1) 0)
      (List.replicate len 0 ++ List.replicate (k + 1) 1) = -1 := by
    have hdrop : ∀ c : Bytes, (List.replicate len (0 : UInt8) ++ c).drop len = c := fun c =>
      List.drop_left' List.length_replicate
    have hfirst : memcmp len (List.replicate len 0 ++ List.replicate (k + 1) 0)
        (List.replicate len 0 ++ List.replicate (k + 1) 1) = 0 := by
      rw [← memcmp_take len len (le_refl _), htake, htake, memcmp_self]
    rw [memcmp_add, hdrop, hdrop, memcmp_zeros_ones, hfirst, if_neg (not_not.mpr rfl)]
  rw [compare, compareCol, memcmp_self, htake, hwhole, hvalues, memcmp_zeros_ones] at hsame
  rw [compare, compareCol, hcode, htake, hwhole, hvalues, memcmp_self] at hbehind
  cases op <;> simp_all [CompOp.holds]

/-- **When strings are compared as values**: they have the same length, or the shorter one is on the left and the operator
does not tell less from equal. -/
theorem comparesWhole_string {len len' : ℕ} {op : CompOp} :
    ComparesWhole .string len len' op ↔ len = len' ∨ len < len' ∧ (op = .gt ∨ op = .le) := by
  constructor
  · intro h
    rcases lt_trichotomy len len' with hlt | heq | hlt
    · obtain ⟨k, rfl⟩ := Nat.exists_eq_add_of_lt hlt
      exact Or.inr ⟨hlt, h.op_of_shorter⟩
    · exact Or.inl heq
    · obtain ⟨k, rfl⟩ := Nat.exists_eq_add_of_lt hlt
      exact absurd h (not_comparesWhole_longer (k := k))
  · intro hlen a b ha hb
    have hle : len ≤ len' := by
      rcases hlen with rfl | ⟨hlt, -⟩
      · exact le_refl _
      · exact hlt.le
    have hla : (a.take len).length = len := by rw [List.length_take, Nat.min_eq_left ha]
    have hlb : (b.take len').length = len' := by rw [List.length_take, Nat.min_eq_left hb]
    rw [compareValues_string (by omega), hla, hlb, memcmp_take len len' hle, compare, compareCol]
    split_ifs with hfirst
    · rfl
    · rw [not_not.mp hfirst]
      rcases hlen with rfl | ⟨-, hop⟩
      · rw [Nat.sub_self, memcmp]
      · have hrest := memcmp_zeros_le (len' - len) ((b.take len').drop len)
        rcases hop with rfl | rfl
        · simp [CompOp.holds, not_lt.mpr hrest]
        · simp [CompOp.holds, hrest]

end Rmdb.Execution
