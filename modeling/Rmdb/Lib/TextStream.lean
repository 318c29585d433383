import Mathlib.Data.List.Basic
import Mathlib.Algebra.Group.Int.Defs

/-!
# Formatted text streams

Values that are written to a text stream one after another and read back with `>>`. A read
skips white space, takes the longest word that can be one of its type, and fails if there
is none; what a stream that has failed delivers is not modelled.

`Reads p s a` says that the reader `p` takes `a` from the text `s`, wherever that text is
followed by white space or by the end, and up to white space that the next read skips
anyway. Readers in sequence read texts in sequence (`Reads.bind`), as long as white space
stands between them; white space before and after a text does not matter (`Reads.before`,
`Reads.after`).
-/

namespace Rmdb.Lib

/-- `isspace` in the `C` locale. -/
def isSpace (c : Char) : Bool :=
  c = ' ' || c = '\t' || c = '\n' || c = '\x0b' || c = '\x0c' || c = '\r'

/-- The stream after its leading white space. -/
def skipWs (s : List Char) : List Char := s.dropWhile isSpace

/-- A reader of a stream; `none` is a stream that has failed. -/
abbrev Reader (α : Type) := StateT (List Char) Option α

/-! ### Readers -/

/-- `is >> s` for a string. -/
def readString : Reader String := fun s =>
  let s := skipWs s
  if s = [] then none
  else some (String.ofList (s.takeWhile fun c => !isSpace c), s.dropWhile fun c => !isSpace c)

/-- The digits of a number. -/
def readDigits : Reader ℕ := fun s =>
  if s.takeWhile Char.isDigit = [] then none
  else some (Nat.ofDigitChars 10 (s.takeWhile Char.isDigit) 0, s.dropWhile Char.isDigit)

/-- `is >> n` for a number of any size. -/
def readNumber : Reader ℤ := fun s =>
  match skipWs s with
  | '-' :: s => (readDigits s).map fun r => (-(r.1 : ℤ), r.2)
  | '+' :: s => (readDigits s).map fun r => ((r.1 : ℤ), r.2)
  | s => (readDigits s).map fun r => ((r.1 : ℤ), r.2)

/-- `is >> n` for a `size_t` that counts what fits in memory. -/
def readSize : Reader ℕ := do
  let n ← readNumber
  if 0 ≤ n then pure n.toNat else failure

/-- `is >> n` for an `int`. -/
def readInt : Reader Int32 := do
  let n ← readNumber
  if -2 ^ 31 ≤ n ∧ n < 2 ^ 31 then pure (Int32.ofInt n) else failure

/-- `is >> b` for a `bool`. -/
def readBool : Reader Bool := do
  let n ← readNumber
  if n = 0 then pure false else if n = 1 then pure true else failure

/-- A loop that reads `n` values. -/
def readMany {α : Type} (p : Reader α) : ℕ → Reader (List α)
  | 0 => pure []
  | n + 1 => do
    let a ← p
    let l ← readMany p n
    pure (a :: l)

/-! ### Writers -/

/-- `os << n` for a number. -/
def showNumber (n : ℤ) : List Char :=
  if n < 0 then '-' :: Nat.toDigits 10 n.natAbs else Nat.toDigits 10 n.natAbs

/-- `os << b` for a `bool`. -/
def showBool (b : Bool) : List Char := showNumber (if b then 1 else 0)

/-! ### What a reader takes from a text -/

/-- The stream is at its end, or white space follows. -/
def Ends (s : List Char) : Prop := ∀ c ∈ s.head?, isSpace c = true

/-- The reader takes the value from the text. -/
def Reads {α : Type} (p : Reader α) (s : List Char) (a : α) : Prop :=
  ∀ r rest, skipWs r = skipWs (s ++ rest) → Ends rest → ∃ r', p r = some (a, r') ∧ skipWs r' = skipWs rest

theorem skipWs_append {ws : List Char} (h : ∀ c ∈ ws, isSpace c = true) (s : List Char) :
    skipWs (ws ++ s) = skipWs s := List.dropWhile_append_of_pos h

theorem isSpace_singleton {c : Char} (hc : isSpace c = true) : ∀ d ∈ [c], isSpace d = true := by
  intro d hd
  obtain rfl := List.mem_singleton.mp hd
  exact hc

/-- A word is where white space ends. -/
theorem skipWs_word {w : List Char} (hne : w ≠ []) (hw : ∀ c ∈ w, isSpace c = false) (rest : List Char) :
    skipWs (w ++ rest) = w ++ rest := by
  obtain ⟨c, w, rfl⟩ := List.exists_cons_of_ne_nil hne
  exact List.dropWhile_cons_of_neg (by simp [hw c List.mem_cons_self])

theorem Ends.append {ws rest : List Char} (h : ∀ c ∈ ws, isSpace c = true) (hrest : Ends rest) : Ends (ws ++ rest) := by
  rcases ws with _ | ⟨c, ws⟩
  · exact hrest
  · intro d hd
    obtain rfl : c = d := by simpa using hd
    exact h c List.mem_cons_self

theorem Ends.cons {c : Char} (h : isSpace c = true) (s : List Char) : Ends (c :: s) := by
  intro d hd
  obtain rfl : c = d := by simpa using hd
  exact h

/-- White space stands before each part of the text. -/
theorem Ends.flatMap {α : Type} {c : Char} (h : isSpace c = true) (text : α → List Char) (l : List α) {rest : List Char}
    (hrest : Ends rest) : Ends ((l.flatMap fun a => c :: text a) ++ rest) := by
  rcases l with _ | ⟨a, l⟩
  · exact hrest
  · exact .cons h _

/-- A word of characters of a kind, that none of white space is of, is cut off where white space begins. -/
theorem span_word {q : Char → Bool} (hq : ∀ c, isSpace c = true → q c = false) {w rest : List Char}
    (hw : ∀ c ∈ w, q c = true) (hrest : Ends rest) :
    (w ++ rest).takeWhile q = w ∧ (w ++ rest).dropWhile q = rest := by
  have hstop : rest.takeWhile q = [] ∧ rest.dropWhile q = rest := by
    rcases rest with _ | ⟨c, rest⟩
    · exact ⟨rfl, rfl⟩
    · have hc : ¬ q c = true := by simp [hq c (hrest c rfl)]
      exact ⟨List.takeWhile_cons_of_neg hc, List.dropWhile_cons_of_neg hc⟩
  rw [List.takeWhile_append_of_pos hw, List.dropWhile_append_of_pos hw, hstop.1, hstop.2, List.append_nil]
  exact ⟨rfl, rfl⟩

namespace Reads

variable {α β : Type} {p : Reader α} {s t w : List Char} {a : α} {b : β}

theorem pure (a : α) : Reads (Pure.pure a : Reader α) [] a := fun r _ hr _ => ⟨r, rfl, hr⟩

/-- Readers in sequence. -/
theorem bind {f : α → Reader β} (hp : Reads p s a) (hf : Reads (f a) t b) (ht : ∀ rest, Ends rest → Ends (t ++ rest)) :
    Reads (p >>= f) (s ++ t) b := by
  intro r rest hr hrest
  rw [List.append_assoc] at hr
  obtain ⟨r₁, h₁, hr₁⟩ := hp r (t ++ rest) hr (ht rest hrest)
  obtain ⟨r₂, h₂, hr₂⟩ := hf r₁ rest hr₁ hrest
  refine ⟨r₂, ?_, hr₂⟩
  change (p r).bind (fun x => f x.1 x.2) = _
  rw [h₁]
  exact h₂

/-- The last reader of a sequence, followed by what is made of its value. -/
theorem last {f : α → Reader β} (hp : Reads p s a) (hf : f a = Pure.pure b) : Reads (p >>= f) s b := by
  have h := hp.bind (f := f) (t := []) (by rw [hf]; exact Reads.pure b) fun rest hrest => hrest
  rwa [List.append_nil] at h

theorem before (hp : Reads p s a) (hws : ∀ c ∈ w, isSpace c = true) : Reads p (w ++ s) a := by
  intro r rest hr hrest
  rw [List.append_assoc, skipWs_append hws] at hr
  exact hp r rest hr hrest

theorem after (hp : Reads p s a) (hws : ∀ c ∈ w, isSpace c = true) : Reads p (s ++ w) a := by
  intro r rest hr hrest
  rw [List.append_assoc] at hr
  obtain ⟨r', h, hr'⟩ := hp r (w ++ rest) hr (.append hws hrest)
  exact ⟨r', h, hr'.trans (skipWs_append hws rest)⟩

/-- A reader in sequence, after a white space character. -/
theorem sep {f : α → Reader β} {c : Char} (hc : isSpace c = true) (hp : Reads p s a) (hf : Reads (f a) t b) :
    Reads (p >>= f) (s ++ c :: t) b := by
  refine hp.bind (t := c :: t) ?_ fun rest _ => .cons hc _
  exact hf.before (isSpace_singleton hc)

/-- A loop, over texts with a white space character before each. -/
theorem many {c : Char} (hc : isSpace c = true) {f : α → List Char} : ∀ {l : List α},
    (∀ a ∈ l, Reads p (f a) a) → Reads (readMany p l.length) (l.flatMap fun a => c :: f a) l
  | [], _ => Reads.pure []
  | a :: l, h => by
    have htail := Reads.many hc fun b hb => h b (List.mem_cons_of_mem a hb)
    have hhead := (h a List.mem_cons_self).bind (f := fun x => do
      let l' ← readMany p l.length
      Pure.pure (x :: l')) (htail.last rfl) fun _ => .flatMap hc f l
    exact hhead.before (isSpace_singleton hc)

/-- **What is read** from the whole text. -/
theorem run (hp : Reads p s a) : (p s).map Prod.fst = some a := by
  obtain ⟨r, h, -⟩ := hp s [] (by rw [List.append_nil]) fun c hc => by simp at hc
  rw [h]
  rfl

end Reads

/-! ### The readers take what the writers write -/

theorem reads_string {w : String} (hne : w ≠ "") (hw : ∀ c ∈ w.toList, isSpace c = false) :
    Reads readString w.toList w := by
  intro r rest hr hrest
  have hne' : w.toList ≠ [] := by simpa using hne
  rw [skipWs_word hne' hw] at hr
  obtain ⟨htake, hdrop⟩ := span_word (q := fun c => !isSpace c) (w := w.toList) (by simp)
    (fun c hc => by simp [hw c hc]) hrest
  refine ⟨rest, ?_, rfl⟩
  unfold readString
  simp only [hr, htake, hdrop, List.append_eq_nil_iff, hne', false_and, if_false, String.ofList_toList]

theorem not_isSpace_of_isDigit {c : Char} (h : c.isDigit = true) : isSpace c = false := by
  by_contra hc
  rw [Bool.not_eq_false] at hc
  simp only [isSpace, Bool.or_eq_true, decide_eq_true_eq] at hc
  rcases hc with ((((rfl | rfl) | rfl) | rfl) | rfl) | rfl <;> exact absurd h (by decide)

theorem digits_toDigits {n : ℕ} {c : Char} (hc : c ∈ Nat.toDigits 10 n) : c.isDigit = true :=
  Nat.isDigit_of_mem_toDigits (by decide) (by decide) hc

theorem readDigits_toDigits {rest : List Char} (n : ℕ) (hrest : Ends rest) :
    readDigits (Nat.toDigits 10 n ++ rest) = some (n, rest) := by
  have hq : ∀ c, isSpace c = true → c.isDigit = false := by
    intro c hc
    by_contra hd
    rw [Bool.not_eq_false] at hd
    rw [not_isSpace_of_isDigit hd] at hc
    cases hc
  obtain ⟨htake, hdrop⟩ := span_word hq (fun c hc => digits_toDigits hc) hrest
  unfold readDigits
  rw [htake, hdrop, if_neg Nat.toDigits_ne_nil, Nat.ofDigitChars_ten_toDigits]

theorem reads_number (n : ℤ) : Reads readNumber (showNumber n) n := by
  intro r rest hr hrest
  refine ⟨rest, ?_, rfl⟩
  unfold readNumber
  unfold showNumber at hr
  split at hr
  next hneg =>
    rw [hr, List.cons_append, skipWs, List.dropWhile_cons_of_neg (by decide)]
    have habs : -(n.natAbs : ℤ) = n := by omega
    simp only [readDigits_toDigits _ hrest, Option.map_some, habs]
  next hpos =>
    obtain ⟨d, ds, hds⟩ := List.exists_cons_of_ne_nil (Nat.toDigits_ne_nil (n := n.natAbs) (b := 10))
    have hd : d.isDigit = true := digits_toDigits (n := n.natAbs) (by rw [hds]; exact List.mem_cons_self)
    have hword := skipWs_word Nat.toDigits_ne_nil
      (fun c hc => not_isSpace_of_isDigit (digits_toDigits (n := n.natAbs) hc)) rest
    have hdigits := readDigits_toDigits n.natAbs hrest
    rw [hr, hword]
    rw [hds, List.cons_append] at hdigits ⊢
    split
    next heq =>
      obtain ⟨rfl, -⟩ := List.cons.inj heq
      exact absurd hd (by decide)
    next heq =>
      obtain ⟨rfl, -⟩ := List.cons.inj heq
      exact absurd hd (by decide)
    next =>
      have habs : (n.natAbs : ℤ) = n := by omega
      simp only [hdigits, Option.map_some, habs]

theorem reads_size (n : ℕ) : Reads readSize (showNumber n) n := by
  refine (reads_number n).last ?_
  rw [if_pos (Int.natCast_nonneg n), Int.toNat_natCast]

theorem reads_int (n : Int32) : Reads readInt (showNumber n.toInt) n := by
  refine (reads_number n.toInt).last ?_
  rw [if_pos ⟨n.le_toInt, n.toInt_lt⟩, Int32.ofInt_toInt]

theorem reads_bool (b : Bool) : Reads readBool (showBool b) b := by
  refine (reads_number _).last ?_
  cases b <;> rfl

/-- A text with a separator after each part, and one before all. -/
theorem cons_flatMap_snoc {α : Type} (c : Char) (text : α → List Char) (l : List α) (rest : List Char) :
    c :: (l.flatMap (fun a => text a ++ [c]) ++ rest) = l.flatMap (fun a => c :: text a) ++ c :: rest := by
  induction l with
  | nil => rfl
  | cons a l ih =>
    rw [List.flatMap_cons, List.flatMap_cons, List.append_assoc, List.append_assoc, List.append_assoc,
      List.singleton_append, ih]
    rfl

end Rmdb.Lib
