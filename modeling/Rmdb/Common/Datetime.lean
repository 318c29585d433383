import Rmdb.Common.Text
import Rmdb.Common.Value

/-!
# Dates and times

`parse_datetime_string` packs the six numbers of a text `YYYY-MM-DD HH:MM:SS` into one integer,
two decimal digits for each but the year, and `format_datetime_value` writes them again.

An `Instant` is a day of the Gregorian calendar with a time of day. Exactly the texts of
instants are accepted, each as the number of its instant, and the order of the numbers is
both the order in time and that of the texts (`datetime_faithful`).
-/

namespace Rmdb

open Rmdb.Parser (bytes)

/-- `format_datetime_value`. -/
def formatDatetimeValue (encoded : ℤ) : Bytes :=
  let second := encoded.tmod 100
  let encoded := encoded.tdiv 100
  let minute := encoded.tmod 100
  let encoded := encoded.tdiv 100
  let hour := encoded.tmod 100
  let encoded := encoded.tdiv 100
  let day := encoded.tmod 100
  let encoded := encoded.tdiv 100
  let month := encoded.tmod 100
  let year := encoded.tdiv 100
  setw 48 4 (toText year) ++ bytes "-" ++ setw 48 2 (toText month) ++ bytes "-" ++ setw 48 2 (toText day) ++ bytes " " ++
    setw 48 2 (toText hour) ++ bytes ":" ++ setw 48 2 (toText minute) ++ bytes ":" ++ setw 48 2 (toText second)

/-! ### The calendar -/

/-- The years with a 29th of February. -/
def Leap (year : ℕ) : Prop := 4 ∣ year ∧ (100 ∣ year → 400 ∣ year)

instance (year : ℕ) : Decidable (Leap year) := instDecidableAnd

/-- The days of a month. -/
def monthDays (year : ℕ) : ℕ → ℕ
  | 1 | 3 | 5 | 7 | 8 | 10 | 12 => 31
  | 4 | 6 | 9 | 11 => 30
  | 2 => if Leap year then 29 else 28
  | _ => 0

/-- The days of a year. -/
def yearDays (year : ℕ) : ℕ := if Leap year then 366 else 365

/-- The days before a year. -/
def yearStart : ℕ → ℕ
  | 0 => 0
  | year + 1 => yearStart year + yearDays year

/-- The days of a year before a month. -/
def monthStart (year : ℕ) : ℕ → ℕ
  | 0 => 0
  | month + 1 => monthStart year month + monthDays year month

/-- A day with a time of day. -/
structure Instant where
  year : ℕ
  month : ℕ
  day : ℕ
  hour : ℕ
  minute : ℕ
  second : ℕ
  year_mem : 1000 ≤ year ∧ year ≤ 9999
  month_mem : 1 ≤ month ∧ month ≤ 12
  day_mem : 1 ≤ day ∧ day ≤ monthDays year month
  hour_lt : hour < 24
  minute_lt : minute < 60
  second_lt : second < 60

namespace Instant

/-- The day, counted from the first one of the calendar. -/
def dayNumber (t : Instant) : ℕ := yearStart t.year + (monthStart t.year t.month + (t.day - 1))

/-- The instant, in seconds. -/
def seconds (t : Instant) : ℕ := ((t.dayNumber * 24 + t.hour) * 60 + t.minute) * 60 + t.second

/-- The text `YYYY-MM-DD HH:MM:SS`. -/
def text (t : Instant) : Bytes :=
  decimal 4 t.year ++ 45 :: (decimal 2 t.month ++ 45 :: (decimal 2 t.day ++ 32 ::
    (decimal 2 t.hour ++ 58 :: (decimal 2 t.minute ++ 58 :: decimal 2 t.second))))

/-- The day, packed. -/
def packedDay (t : Instant) : ℕ := (t.year * 100 + t.month) * 100 + t.day

/-- The instant, packed. -/
def packed (t : Instant) : ℕ := ((t.packedDay * 100 + t.hour) * 100 + t.minute) * 100 + t.second

end Instant

theorem monthDays_le (year month : ℕ) : monthDays year month ≤ 31 := by
  unfold monthDays
  split <;> first | decide | (split <;> decide)

theorem monthStart_thirteen (year : ℕ) : monthStart year 13 = yearDays year := by
  simp only [monthStart, monthDays, yearDays]
  split <;> rfl

theorem yearStart_lt {year year' : ℕ} (h : year < year') : yearStart year + yearDays year ≤ yearStart year' := by
  induction h with
  | refl => exact le_refl _
  | step _ ih => exact ih.trans (Nat.le_add_right _ _)

theorem monthStart_lt (year : ℕ) {month month' : ℕ} (h : month < month') :
    monthStart year month + monthDays year month ≤ monthStart year month' := by
  induction h with
  | refl => exact le_refl _
  | step _ ih => exact ih.trans (Nat.le_add_right _ _)

/-! ### The order of instants -/

namespace Instant

variable {t t' : Instant}

/-- A day lies before another one. -/
def DayBefore (t t' : Instant) : Prop :=
  t.year < t'.year ∨ t.year = t'.year ∧ (t.month < t'.month ∨ t.month = t'.month ∧ t.day < t'.day)

theorem day_lt_year (t : Instant) : monthStart t.year t.month + (t.day - 1) < yearDays t.year := by
  have hday := t.day_mem
  have hmonth := monthStart_lt t.year (show t.month < 13 from Nat.lt_succ_of_le t.month_mem.2)
  rw [monthStart_thirteen] at hmonth
  omega

theorem dayNumber_lt (h : DayBefore t t') : t.dayNumber < t'.dayNumber := by
  have hyear := t.day_lt_year
  have hday := t.day_mem
  have hday' := t'.day_mem
  rcases h with h | ⟨heq, h | ⟨heq', h⟩⟩
  · have hstart := yearStart_lt h
    rw [dayNumber, dayNumber]
    omega
  · have hstart := monthStart_lt t.year h
    rw [dayNumber, dayNumber, ← heq]
    omega
  · rw [dayNumber, dayNumber, ← heq, ← heq']
    omega

theorem dayBefore_cases (t t' : Instant) : DayBefore t t' ∨ DayBefore t' t ∨
    (t.year = t'.year ∧ t.month = t'.month ∧ t.day = t'.day) := by
  rw [DayBefore, DayBefore]
  omega

theorem dayNumber_lt_iff : t.dayNumber < t'.dayNumber ↔ DayBefore t t' := by
  refine ⟨?_, dayNumber_lt⟩
  intro h
  rcases dayBefore_cases t t' with hlt | hgt | ⟨hyear, hmonth, hday⟩
  · exact hlt
  · exact absurd (dayNumber_lt hgt) (not_lt.mpr (le_of_lt h))
  · rw [dayNumber, dayNumber, hyear, hmonth, hday] at h
    exact absurd h (lt_irrefl _)

theorem packedDay_lt_iff : t.packedDay < t'.packedDay ↔ DayBefore t t' := by
  have hday := t.day_mem.2.trans (monthDays_le _ _)
  have hday' := t'.day_mem.2.trans (monthDays_le _ _)
  have hmonth := t.month_mem
  have hmonth' := t'.month_mem
  rw [packedDay, packedDay, DayBefore]
  omega

/-- **Packed instants** are in the order of time. -/
theorem packed_lt_iff : t.packed < t'.packed ↔ t.seconds < t'.seconds := by
  have hlt : t.packedDay < t'.packedDay ↔ t.dayNumber < t'.dayNumber := packedDay_lt_iff.trans dayNumber_lt_iff.symm
  have hgt : t'.packedDay < t.packedDay ↔ t'.dayNumber < t.dayNumber := packedDay_lt_iff.trans dayNumber_lt_iff.symm
  have hhour := t.hour_lt
  have hhour' := t'.hour_lt
  have hminute := t.minute_lt
  have hminute' := t'.minute_lt
  have hsecond := t.second_lt
  have hsecond' := t'.second_lt
  rw [packed, packed, seconds, seconds]
  omega

theorem cons_lt_cons_self (c : UInt8) {a b : Bytes} : c :: a < c :: b ↔ a < b := by
  rw [List.cons_lt_cons_iff]
  exact ⟨fun h => h.elim (fun hc => absurd hc (UInt8.lt_irrefl c)) And.right, fun h => .inr ⟨rfl, h⟩⟩

/-- One number of a text, with what stands behind it. -/
theorem field_lt_iff {w n m : ℕ} (hn : n < 10 ^ w) (hm : m < 10 ^ w) (c : UInt8) {a b : Bytes} :
    decimal w n ++ c :: a < decimal w m ++ c :: b ↔ n < m ∨ n = m ∧ a < b := by
  rw [append_lt_append_iff (by rw [length_decimal, length_decimal]), decimal_lt_iff hn hm, decimal_inj hn hm,
    cons_lt_cons_self]

/-- The numbers fit into their digits. -/
theorem lt_pow (t : Instant) : t.year < 10 ^ 4 ∧ t.month < 10 ^ 2 ∧ t.day < 10 ^ 2 ∧ t.hour < 10 ^ 2 ∧ t.minute < 10 ^ 2 ∧
    t.second < 10 ^ 2 := by
  have hday := t.day_mem.2.trans (monthDays_le _ _)
  exact ⟨Nat.lt_succ_of_le t.year_mem.2, t.month_mem.2.trans_lt (by decide), hday.trans_lt (by decide),
    t.hour_lt.trans (by decide), t.minute_lt.trans (by decide), t.second_lt.trans (by decide)⟩

/-- **Texts of instants** are in the order of the packed instants. -/
theorem text_lt_iff : t.text < t'.text ↔ t.packed < t'.packed := by
  obtain ⟨hyear, hmonth, hday, hhour, hminute, hsecond⟩ := t.lt_pow
  obtain ⟨hyear', hmonth', hday', hhour', hminute', hsecond'⟩ := t'.lt_pow
  rw [text, text, field_lt_iff hyear hyear', field_lt_iff hmonth hmonth', field_lt_iff hday hday', field_lt_iff hhour hhour',
    field_lt_iff hminute hminute', decimal_lt_iff hsecond hsecond', packed, packed, packedDay, packedDay]
  omega

end Instant

/-! ### Reading and writing -/

section Parse

variable {value : Bytes}

theorem parseComponent_eq (value : Bytes) (pos len : ℕ) :
    parseComponent value pos len = readDecimal ((value.drop pos).take len) := rfl

/-- A component at its place. -/
theorem parseComponent_at {A B : Bytes} {pos w n : ℕ} (hvalue : value = A ++ (decimal w n ++ B)) (hA : A.length = pos)
    (hn : n < 10 ^ w) : parseComponent value pos w = n := by
  have htake : (decimal w n ++ B).take w = decimal w n := by
    rw [List.take_append_of_le_length (length_decimal w n).ge, List.take_of_length_le (length_decimal w n).le]
  rw [parseComponent_eq, hvalue, ← hA, List.drop_left, htake, readDecimal_decimal hn]

/-- A separator at its place. -/
theorem separator_at {A B : Bytes} {pos : ℕ} {c : UInt8} (hvalue : value = A ++ c :: B) (hA : A.length = pos) :
    value[pos]? = some c := by
  rw [hvalue, ← hA, List.getElem?_append_right (le_refl _), Nat.sub_self]
  rfl

/-- A component, a separator and the rest. -/
theorem drop_eq_of_separator (pos w : ℕ) {c : UInt8} (h : value[pos + w]? = some c) :
    value.drop pos = (value.drop pos).take w ++ c :: value.drop (pos + w + 1) := by
  obtain ⟨hlt, hget⟩ := List.getElem?_eq_some_iff.mp h
  have hdrop : (value.drop pos).drop w = c :: value.drop (pos + w + 1) := by
    rw [List.drop_drop, List.drop_eq_getElem_cons hlt, hget]
  rw [← hdrop, List.take_append_drop]

/-- A component that is not negative is written in its digits. -/
theorem component_eq (value : Bytes) (pos w : ℕ) (hlen : pos + w ≤ value.length) (h : 0 ≤ parseComponent value pos w) :
    ∃ n : ℕ, n < 10 ^ w ∧ parseComponent value pos w = n ∧ (value.drop pos).take w = decimal w n := by
  have hw : ((value.drop pos).take w).length = w := by
    rw [List.length_take, List.length_drop]
    omega
  rcases readDecimal_cases ((value.drop pos).take w) with hneg | ⟨n, hn, hread, htext⟩
  · rw [parseComponent_eq, hneg] at h
    exact absurd h (by decide)
  · rw [hw] at hn htext
    exact ⟨n, hn, hread, htext⟩

theorem leap_iff (year : ℕ) : isLeapYear year = true ↔ Leap year := by
  rw [isLeapYear, Leap]
  simp only [Bool.or_eq_true, Bool.and_eq_true, decide_eq_true_eq]
  omega

theorem daysInMonth_eq {year month : ℕ} (h : 1 ≤ month ∧ month ≤ 12) :
    daysInMonth year month = monthDays year month := by
  have hleap : (if isLeapYear year = true then (29 : ℤ) else 28) = ((if Leap year then 29 else 28 : ℕ) : ℤ) := by
    by_cases hyear : Leap year
    · rw [if_pos hyear, if_pos ((leap_iff year).mpr hyear)]
      rfl
    · rw [if_neg hyear, if_neg fun h => hyear ((leap_iff year).mp h)]
      rfl
  obtain ⟨hlow, hhigh⟩ := h
  obtain rfl | rfl | rfl | rfl | rfl | rfl | rfl | rfl | rfl | rfl | rfl | rfl : month = 1 ∨ month = 2 ∨ month = 3 ∨
      month = 4 ∨ month = 5 ∨ month = 6 ∨ month = 7 ∨ month = 8 ∨ month = 9 ∨ month = 10 ∨ month = 11 ∨ month = 12 := by omega
  all_goals first | rfl | exact hleap

/-- **What is accepted** is the text of an instant, as its number. -/
theorem exists_instant {e : ℤ} (h : parseDatetimeString value = some e) : ∃ t : Instant, value = t.text ∧ e = t.packed := by
  rw [parseDatetimeString] at h
  dsimp only at h
  split_ifs at h with hform hrange hdays
  obtain ⟨hlen, h4, h7, h10, h13, h16⟩ : value.length = 19 ∧ value[4]? = some 45 ∧ value[7]? = some 45 ∧
      value[10]? = some 32 ∧ value[13]? = some 58 ∧ value[16]? = some 58 := by tauto
  obtain ⟨year, hyear, hyear', htyear⟩ := component_eq value 0 4 (by omega) (by omega)
  obtain ⟨month, hmonth, hmonth', htmonth⟩ := component_eq value 5 2 (by omega) (by omega)
  obtain ⟨day, hday, hday', htday⟩ := component_eq value 8 2 (by omega) (by omega)
  obtain ⟨hour, hhour, hhour', hthour⟩ := component_eq value 11 2 (by omega) (by omega)
  obtain ⟨minute, hminute, hminute', htminute⟩ := component_eq value 14 2 (by omega) (by omega)
  obtain ⟨second, hsecond, hsecond', htsecond⟩ := component_eq value 17 2 (by omega) (by omega)
  rw [hyear', hmonth', hday', hhour', hminute', hsecond'] at hrange h
  rw [hyear', hmonth', hday', daysInMonth_eq (by omega)] at hdays
  refine ⟨⟨year, month, day, hour, minute, second, by omega, by omega, by omega, by omega, by omega, by omega⟩, ?_, ?_⟩
  · have hrest : value.drop 17 = decimal 2 second := by
      rw [← htsecond, List.take_of_length_le]
      rw [List.length_drop]
      omega
    have hvalue := (drop_eq_of_separator 0 4 h4)
    rw [drop_eq_of_separator 5 2 h7, drop_eq_of_separator 8 2 h10, drop_eq_of_separator 11 2 h13,
      drop_eq_of_separator 14 2 h16, htyear, htmonth, htday, hthour, htminute, hrest] at hvalue
    exact hvalue
  · have he := Option.some.inj h
    rw [Instant.packed, Instant.packedDay]
    push_cast
    omega

theorem text_at (t : Instant) :
    t.text = (decimal 4 t.year ++ [45]) ++ (decimal 2 t.month ++ 45 :: (decimal 2 t.day ++ 32 ::
      (decimal 2 t.hour ++ 58 :: (decimal 2 t.minute ++ 58 :: decimal 2 t.second)))) ∧
    t.text = (decimal 4 t.year ++ 45 :: (decimal 2 t.month ++ [45])) ++ (decimal 2 t.day ++ 32 ::
      (decimal 2 t.hour ++ 58 :: (decimal 2 t.minute ++ 58 :: decimal 2 t.second))) ∧
    t.text = (decimal 4 t.year ++ 45 :: (decimal 2 t.month ++ 45 :: (decimal 2 t.day ++ [32]))) ++
      (decimal 2 t.hour ++ 58 :: (decimal 2 t.minute ++ 58 :: decimal 2 t.second)) ∧
    t.text = (decimal 4 t.year ++ 45 :: (decimal 2 t.month ++ 45 :: (decimal 2 t.day ++ 32 ::
      (decimal 2 t.hour ++ [58])))) ++ (decimal 2 t.minute ++ 58 :: decimal 2 t.second) ∧
    t.text = (decimal 4 t.year ++ 45 :: (decimal 2 t.month ++ 45 :: (decimal 2 t.day ++ 32 ::
      (decimal 2 t.hour ++ 58 :: (decimal 2 t.minute ++ [58]))))) ++ (decimal 2 t.second ++ []) := by
  simp only [Instant.text, List.append_assoc, List.cons_append, List.nil_append, List.append_nil, and_self]

/-- **The text of an instant** is accepted. -/
theorem parse_text (t : Instant) : parseDatetimeString t.text = some (t.packed : ℤ) := by
  obtain ⟨hyear, hmonth, hday, hhour, hminute, hsecond⟩ := t.lt_pow
  obtain ⟨e5, e8, e11, e14, e17⟩ := text_at t
  have hlen : t.text.length = 19 := by
    simp only [Instant.text, List.length_append, List.length_cons, length_decimal]
  have p0 : parseComponent t.text 0 4 = t.year :=
    parseComponent_at (show t.text = [] ++ (decimal 4 t.year ++ _) from rfl) rfl hyear
  have p5 : parseComponent t.text 5 2 = t.month := parseComponent_at e5 (by simp [length_decimal]) hmonth
  have p8 : parseComponent t.text 8 2 = t.day := parseComponent_at e8 (by simp [length_decimal]) hday
  have p11 : parseComponent t.text 11 2 = t.hour := parseComponent_at e11 (by simp [length_decimal]) hhour
  have p14 : parseComponent t.text 14 2 = t.minute := parseComponent_at e14 (by simp [length_decimal]) hminute
  have p17 : parseComponent t.text 17 2 = t.second := parseComponent_at e17 (by simp [length_decimal]) hsecond
  have s4 : t.text[4]? = some 45 := separator_at (show t.text = decimal 4 t.year ++ 45 :: _ from rfl) (length_decimal _ _)
  have s7 : t.text[7]? = some 45 := separator_at (e5.trans (List.append_assoc _ _ _).symm) (by simp [length_decimal])
  have s10 : t.text[10]? = some 32 := separator_at (e8.trans (List.append_assoc _ _ _).symm) (by simp [length_decimal])
  have s13 : t.text[13]? = some 58 := separator_at (e11.trans (List.append_assoc _ _ _).symm) (by simp [length_decimal])
  have s16 : t.text[16]? = some 58 := separator_at (e14.trans (List.append_assoc _ _ _).symm) (by simp [length_decimal])
  have hyear' := t.year_mem
  have hmonth' := t.month_mem
  have hday' := t.day_mem
  have hhour' := t.hour_lt
  have hminute' := t.minute_lt
  have hsecond' := t.second_lt
  have hform : ¬ (t.text.length ≠ 19 ∨ t.text[4]? ≠ some 45 ∨ t.text[7]? ≠ some 45 ∨ t.text[10]? ≠ some 32 ∨
      t.text[13]? ≠ some 58 ∨ t.text[16]? ≠ some 58) := by
    rw [hlen, s4, s7, s10, s13, s16]
    simp only [ne_eq, not_true_eq_false, or_self, not_false_eq_true]
  rw [parseDatetimeString, if_neg hform]
  dsimp only
  rw [p0, p5, p8, p11, p14, p17, if_neg (by omega), if_neg (by rw [daysInMonth_eq hmonth']; omega), Instant.packed,
    Instant.packedDay]
  refine congrArg some ?_
  push_cast
  omega

end Parse

/-- One number is taken off. -/
theorem tmod_tdiv_step {n d : ℕ} (h : d < 100) :
    ((n * 100 + d : ℕ) : ℤ).tmod 100 = d ∧ ((n * 100 + d : ℕ) : ℤ).tdiv 100 = n := by
  have hmod : ((n * 100 + d : ℕ) : ℤ).tmod 100 = ((n * 100 + d) % 100 : ℕ) := rfl
  have hdiv : ((n * 100 + d : ℕ) : ℤ).tdiv 100 = ((n * 100 + d) / 100 : ℕ) := rfl
  rw [hmod, hdiv]
  omega

/-- **A packed instant** is written as its text. -/
theorem format_packed (t : Instant) : formatDatetimeValue t.packed = t.text := by
  obtain ⟨hyear, hmonth, hday, hhour, hminute, hsecond⟩ := t.lt_pow
  obtain ⟨m1, d1⟩ := tmod_tdiv_step (n := (t.packedDay * 100 + t.hour) * 100 + t.minute) hsecond
  obtain ⟨m2, d2⟩ := tmod_tdiv_step (n := t.packedDay * 100 + t.hour) hminute
  obtain ⟨m3, d3⟩ := tmod_tdiv_step (n := t.packedDay) hhour
  obtain ⟨m4, d4⟩ := tmod_tdiv_step (n := t.year * 100 + t.month) hday
  obtain ⟨m5, d5⟩ := tmod_tdiv_step (n := t.year) hmonth
  rw [formatDatetimeValue, Instant.packed, m1, d1, m2, d2, m3, d3, Instant.packedDay, m4, d4, m5, d5, setw_toText (by decide) hyear,
    setw_toText (by decide) hmonth, setw_toText (by decide) hday, setw_toText (by decide) hhour,
    setw_toText (by decide) hminute, setw_toText (by decide) hsecond, Instant.text]
  have hdash : bytes "-" = [45] := rfl
  have hspace : bytes " " = [32] := rfl
  have hcolon : bytes ":" = [58] := rfl
  simp only [hdash, hspace, hcolon, List.append_assoc, List.cons_append, List.nil_append]

theorem packed_lt (t : Instant) : (t.packed : ℤ) < 2 ^ 63 := by
  obtain ⟨hyear, hmonth, hday, hhour, hminute, hsecond⟩ := t.lt_pow
  rw [Instant.packed, Instant.packedDay]
  push_cast
  omega

/-- **Dates are packed faithfully**: what is accepted is written again; the texts of instants are accepted and no others; and
packed instants, which are 64-bit integers, are in the order of time and of their texts. -/
theorem datetime_faithful :
    (∀ s e, parseDatetimeString s = some e → formatDatetimeValue e = s ∧ 0 ≤ e ∧ e < 2 ^ 63) ∧
    (∀ s, (∃ e, parseDatetimeString s = some e) ↔ ∃ t : Instant, s = t.text) ∧
    ∀ s s' e e', parseDatetimeString s = some e → parseDatetimeString s' = some e' →
      (e < e' ↔ s < s') ∧ ∀ t t' : Instant, s = t.text → s' = t'.text → (e < e' ↔ t.seconds < t'.seconds) := by
  refine ⟨?_, fun s => ⟨?_, ?_⟩, ?_⟩
  · intro s e h
    obtain ⟨t, rfl, rfl⟩ := exists_instant h
    exact ⟨format_packed t, Int.natCast_nonneg _, packed_lt t⟩
  · rintro ⟨e, h⟩
    obtain ⟨t, rfl, -⟩ := exists_instant h
    exact ⟨t, rfl⟩
  · rintro ⟨t, rfl⟩
    exact ⟨_, parse_text t⟩
  · intro s s' e e' h h'
    obtain ⟨t, rfl, rfl⟩ := exists_instant h
    obtain ⟨t', rfl, rfl⟩ := exists_instant h'
    refine ⟨Int.ofNat_lt.trans Instant.text_lt_iff.symm, ?_⟩
    intro t₂ t₂' ht ht'
    -- a text belongs to one instant only
    have hpacked : (t.packed : ℤ) = t₂.packed := Option.some.inj (h.symm.trans (ht ▸ parse_text t₂))
    have hpacked' : (t'.packed : ℤ) = t₂'.packed := Option.some.inj (h'.symm.trans (ht' ▸ parse_text t₂'))
    rw [hpacked, hpacked']
    exact Int.ofNat_lt.trans Instant.packed_lt_iff

/-- The largest date. -/
theorem datetime_faithful_largest :
    parseDatetimeString (bytes "9999-12-31 23:59:59") = some 99991231235959 ∧
      formatDatetimeValue 99991231235959 = bytes "9999-12-31 23:59:59" := by
  have h : parseDatetimeString (bytes "9999-12-31 23:59:59") = some 99991231235959 := by decide +kernel
  exact ⟨h, (datetime_faithful.1 _ _ h).1⟩

end Rmdb
