import Mathlib.Data.List.Basic

/-!
# Cursors

A cursor stands at a position, tells whether it is at the end, reads the element at its
position and moves on; reading and moving may fail. A filtering scan over it looks for
the next element that passes a test (`seek`) and, from there, for the one after
(`collect`). What such a scan returns is read off the positions the cursor visits
(`Visits`): the elements that pass, in order, or the failure it runs into.

Loops take a bound on their rounds; past it they fail with a given error.
-/

namespace Rmdb.Lib

/-- A cursor over elements `R` with positions `S` and failures `E`. -/
structure Cursor (S E R : Type) where
  /-- Is the position the end? -/
  isEnd : S → Bool
  /-- The element at a position. -/
  read : S → Except E R
  /-- The next position. -/
  next : S → Except E S

namespace Cursor

variable {S E R : Type} (c : Cursor S E R) (overrun : E) (test : R → Except E Bool)

/-- Move on to the first position, this one included, whose element passes the test. -/
def seek : ℕ → S → Except E S
  | 0, _ => .error overrun
  | bound + 1, s =>
    if c.isEnd s then .ok s
    else do
      let r ← c.read s
      if ← test r then .ok s else seek bound (← c.next s)

/-- From a position whose element passes: that element and those after it that pass. -/
def collect (rounds : ℕ) : ℕ → S → Except E (List R)
  | 0, _ => .error overrun
  | bound + 1, s =>
    if c.isEnd s then .ok []
    else do
      let r ← c.read s
      let s ← seek c overrun test rounds (← c.next s)
      let rest ← collect rounds bound s
      .ok (r :: rest)

/-- The whole scan: all elements from a position on that pass. -/
def iterate (rounds : ℕ) (s : S) : Except E (List R) := do
  let s ← c.seek overrun test rounds s
  c.collect overrun test rounds rounds s

/-- From `s` the cursor visits the elements `L` and stands at `s'` then. -/
inductive Visits : S → List R → S → Prop where
  /-- Nothing is visited yet. -/
  | nil (s : S) : Visits s [] s
  /-- An element is read, and the cursor moves on. -/
  | cons {s s₁ s' : S} {r : R} {L : List R} : c.isEnd s = false → c.read s = .ok r → c.next s = .ok s₁ →
      Visits s₁ L s' → Visits s (r :: L) s'

/-- The cursor with its failures renamed. -/
def mapError {E' : Type} (g : E → E') : Cursor S E' R where
  isEnd := c.isEnd
  read s := (c.read s).mapError g
  next s := (c.next s).mapError g

variable {c overrun test}

theorem Visits.mapError {E' : Type} {g : E → E'} {s s' : S} {L : List R} (h : c.Visits s L s') :
    (c.mapError g).Visits s L s' := by
  induction h with
  | nil s => exact .nil s
  | cons hend hread hnext _ ih =>
    exact .cons hend (by simp [Cursor.mapError, hread, Except.mapError]) (by simp [Cursor.mapError, hnext, Except.mapError]) ih

/-- A visit that reaches the end runs into no failed read. -/
theorem Visits.not_error {s s₁ s₂ : S} {L₁ L₂ : List R} {e : E} (h₁ : c.Visits s L₁ s₁) (hend₁ : c.isEnd s₁ = true)
    (h₂ : c.Visits s L₂ s₂) (hend₂ : c.isEnd s₂ = false) (hread : c.read s₂ = .error e) : False := by
  induction h₁ generalizing L₂ with
  | nil s =>
    cases h₂ with
    | nil => simp [hend₁] at hend₂
    | cons hend _ _ _ => simp [hend₁] at hend
  | cons hend hr hn _ ih =>
    cases h₂ with
    | nil => simp [hr] at hread
    | cons hend' hr' hn' h₂ =>
      rw [hn, Except.ok.injEq] at hn'
      exact ih hend₁ (hn' ▸ h₂)

/-- A scan returns the visited elements that pass, and then what it returns where the visit stops. -/
theorem Visits.scan {s s' : S} {L : List R} (h : c.Visits s L s') {p : R → Bool} (htest : ∀ r ∈ L, test r = .ok (p r))
    {rounds : ℕ} (hrounds : L.length < rounds) (overrun : E) (out : Except E (List R))
    (hout : ∀ n k, 0 < n → 0 < k → (c.seek overrun test n s' >>= c.collect overrun test rounds k) = out) :
    ∀ n k, L.length < n → L.length < k →
      (c.seek overrun test n s >>= c.collect overrun test rounds k) = (out >>= fun rest => .ok (L.filter p ++ rest)) := by
  induction h with
  | nil s =>
    intro n k hn hk
    rw [hout n k hn hk]
    cases out <;> rfl
  | @cons s s₁ s' r L hend hread hnext _ ih =>
    intro n k hn hk
    obtain ⟨n, rfl⟩ : ∃ m, n = m + 1 := ⟨n - 1, by simp at hn; omega⟩
    obtain ⟨k, rfl⟩ : ∃ m, k = m + 1 := ⟨k - 1, by simp at hk; omega⟩
    simp only [List.length_cons] at hrounds hn hk
    have htest' : ∀ r ∈ L, test r = .ok (p r) := fun r hr => htest r (List.mem_cons_of_mem _ hr)
    have ih := ih htest' (by omega) hout
    simp only [seek, hend, hread, hnext, htest r List.mem_cons_self, bind, Except.bind, Bool.false_eq_true, if_false] at ih ⊢
    cases hp : p r with
    | true =>
      have ih := ih rounds k (by omega) (by omega)
      simp only [collect, hend, hread, hnext, bind, Except.bind, Bool.false_eq_true, if_true, if_false,
        List.filter_cons, hp] at ih ⊢
      cases hs : c.seek overrun test rounds s₁ with
      | error e => rw [hs] at ih; cases out <;> simp_all
      | ok s₂ =>
        rw [hs] at ih
        simp only at ih ⊢
        rw [ih]
        cases out <;> rfl
    | false =>
      simp only [List.filter_cons, hp, Bool.false_eq_true, if_false]
      exact ih n (k + 1) (by omega) (by omega)

/-- A visit that stops at the end is a scan that returns the elements that pass. -/
theorem Visits.iterate_ok {s s' : S} {L : List R} (h : c.Visits s L s') (hend : c.isEnd s' = true) {p : R → Bool}
    (htest : ∀ r ∈ L, test r = .ok (p r)) {rounds : ℕ} (hrounds : L.length < rounds) :
    c.iterate overrun test rounds s = .ok (L.filter p) := by
  have := h.scan htest hrounds overrun (.ok []) (fun n k hn hk => by
    obtain ⟨n, rfl⟩ : ∃ m, n = m + 1 := ⟨n - 1, by omega⟩
    obtain ⟨k, rfl⟩ : ∃ m, k = m + 1 := ⟨k - 1, by omega⟩
    simp [seek, collect, hend, bind, Except.bind]) rounds rounds hrounds hrounds
  rw [iterate, this]
  simp [bind, Except.bind]

/-- A visit that stops where reading fails is a scan that fails. -/
theorem Visits.iterate_error {s s' : S} {L : List R} (h : c.Visits s L s') (hend : c.isEnd s' = false) {e : E}
    (hread : c.read s' = .error e) {p : R → Bool} (htest : ∀ r ∈ L, test r = .ok (p r)) {rounds : ℕ}
    (hrounds : L.length < rounds) : c.iterate overrun test rounds s = .error e := by
  have := h.scan htest hrounds overrun (.error e) (fun n k hn hk => by
    obtain ⟨n, rfl⟩ : ∃ m, n = m + 1 := ⟨n - 1, by omega⟩
    simp [seek, hend, hread, bind, Except.bind]) rounds rounds hrounds hrounds
  rw [iterate, this]
  rfl

end Cursor

end Rmdb.Lib
