import Rmdb.Lib.Cursor

/-!
# Cursors that can be started again

A cursor yields a list from a position when it visits its elements and is at the end then. The
elements of a list that is still to be yielded say what the operations do (`yields_nil`,
`yields_cons`), and a relation between positions and lists that the operations keep is enough for a
cursor to yield them (`Yields.of_sim`).

A `Restart` has, besides the operations of a cursor, one that starts it. It enumerates a list when
it yields that list from every start, whatever it was doing before.
-/

namespace Rmdb.Lib

variable {S E R : Type}

namespace Cursor

variable (c : Cursor S E R)

/-- From this position the cursor visits the elements of the list, and nothing else. -/
def Yields (s : S) (L : List R) : Prop := ∃ s', c.Visits s L s' ∧ c.isEnd s' = true

variable {c} {s s' : S} {r : R} {L : List R}

theorem yields_nil : c.Yields s [] ↔ c.isEnd s = true := by
  constructor
  · rintro ⟨s', hvisits, hend⟩
    cases hvisits
    exact hend
  · exact fun hend => ⟨s, .nil s, hend⟩

theorem yields_cons : c.Yields s (r :: L) ↔
    c.isEnd s = false ∧ c.read s = .ok r ∧ ∃ s', c.next s = .ok s' ∧ c.Yields s' L := by
  constructor
  · rintro ⟨s', hvisits, hend⟩
    cases hvisits with
    | cons hgo hread hnext hvisits => exact ⟨hgo, hread, _, hnext, s', hvisits, hend⟩
  · rintro ⟨hgo, hread, s₁, hnext, s', hvisits, hend⟩
    exact ⟨s', .cons hgo hread hnext hvisits, hend⟩

theorem Yields.isEnd (h : c.Yields s L) : c.isEnd s = L.isEmpty := by
  cases L with
  | nil => exact yields_nil.mp h
  | cons => exact (yields_cons.mp h).1

/-- **The rule for simulations**: lists that the operations take apart are yielded. -/
theorem Yields.of_sim {P : S → List R → Prop} (hnil : ∀ s, P s [] → c.isEnd s = true)
    (hcons : ∀ s r L, P s (r :: L) → c.isEnd s = false ∧ c.read s = .ok r ∧ ∃ s', c.next s = .ok s' ∧ P s' L) :
    ∀ {L : List R} {s : S}, P s L → c.Yields s L
  | [], s, h => yields_nil.mpr (hnil s h)
  | r :: L, s, h => by
    obtain ⟨hgo, hread, s', hnext, h'⟩ := hcons s r L h
    exact yields_cons.mpr ⟨hgo, hread, s', hnext, Yields.of_sim hnil hcons h'⟩

end Cursor

/-- A cursor with an operation that starts it. -/
structure Restart (S E R : Type) extends Cursor S E R where
  /-- Start, or start again. -/
  start : S → Except E S

namespace Restart

/-- The elements from a position on, in at most so many rounds. -/
def rest (x : Restart S E R) (overrun : E) : ℕ → S → Except E (List R)
  | 0, _ => .error overrun
  | rounds + 1, s =>
    if x.isEnd s then .ok []
    else do
      let r ← x.read s
      let L ← rest x overrun rounds (← x.next s)
      .ok (r :: L)

/-- The loop over all elements. -/
def all (x : Restart S E R) (overrun : E) (rounds : ℕ) (s : S) : Except E (List R) := do
  x.rest overrun rounds (← x.start s)

/-- The loop over the elements from a position on, with a body that may fail. -/
def fold {A : Type} (x : Restart S E R) (overrun : E) (body : A → R → Except E A) : ℕ → S → A → Except E (S × A)
  | 0, _, _ => .error overrun
  | rounds + 1, s, a =>
    if x.isEnd s then .ok (s, a)
    else do
      let r ← x.read s
      let a ← body a r
      fold x overrun body rounds (← x.next s) a

/-- In the states `I`, which the operations do not leave, a start is followed by the elements of the list. -/
structure Enumerates (x : Restart S E R) (I : S → Prop) (L : List R) : Prop where
  start : ∀ s, I s → ∃ s', x.start s = .ok s' ∧ I s' ∧ x.Yields s' L
  next : ∀ s s', I s → x.isEnd s = false → x.next s = .ok s' → I s'

variable {x : Restart S E R} {I : S → Prop} {L : List R} {s : S} {overrun : E}

theorem rest_eq_of_yields : ∀ {L : List R} {rounds : ℕ} {s : S}, x.Yields s L → L.length < rounds →
    x.rest overrun rounds s = .ok L
  | [], rounds + 1, s, h, _ => by
    rw [rest, if_pos (Cursor.yields_nil.mp h)]
  | r :: L, rounds + 1, s, h, hrounds => by
    obtain ⟨hgo, hread, s', hnext, h'⟩ := Cursor.yields_cons.mp h
    rw [rest, hgo, if_neg Bool.false_ne_true, hread, hnext]
    exact congrArg (· >>= fun L => Except.ok (r :: L)) (rest_eq_of_yields h' (Nat.lt_of_succ_lt_succ hrounds))

/-- **The loop over all elements** returns the list, from any state. -/
theorem Enumerates.all_eq (h : x.Enumerates I L) (hs : I s) {rounds : ℕ} (hrounds : L.length < rounds) :
    x.all overrun rounds s = .ok L := by
  obtain ⟨s', hstart, -, hyields⟩ := h.start s hs
  rw [all, hstart]
  exact rest_eq_of_yields hyields hrounds

/-- The loop over the elements of the list does what its body does with one after the other. -/
theorem Enumerates.fold_eq {A : Type} {body : A → R → Except E A} (h : x.Enumerates I L) :
    ∀ {L' : List R} {rounds : ℕ} {s : S} {a a' : A}, I s → x.Yields s L' → L'.length < rounds → L'.foldlM body a = .ok a' →
      ∃ s', x.fold overrun body rounds s a = .ok (s', a') ∧ I s'
  | [], rounds + 1, s, a, a', hs, hyields, _, hfold => by
    cases hfold
    exact ⟨s, by rw [fold, if_pos (Cursor.yields_nil.mp hyields)], hs⟩
  | r :: L', rounds + 1, s, a, a', hs, hyields, hrounds, hfold => by
    obtain ⟨hgo, hread, s', hnext, hyields'⟩ := Cursor.yields_cons.mp hyields
    rw [List.foldlM_cons] at hfold
    rw [fold, hgo, if_neg Bool.false_ne_true, hread, hnext]
    simp only [bind, Except.bind] at hfold ⊢
    rcases hbody : body a r with e | a₁
    · rw [hbody] at hfold
      cases hfold
    · rw [hbody] at hfold
      exact h.fold_eq (h.next s s' hs hgo hnext) hyields' (Nat.lt_of_succ_lt_succ hrounds) hfold

variable (overrun) in
/-- The loop that starts and runs over all elements of the list. -/
theorem Enumerates.start_fold_eq {A : Type} {body : A → R → Except E A} (h : x.Enumerates I L) (hs : I s) {rounds : ℕ}
    (hrounds : L.length < rounds) {a a' : A} (hfold : L.foldlM body a = .ok a') :
    ∃ s₁ s', x.start s = .ok s₁ ∧ x.fold overrun body rounds s₁ a = .ok (s', a') ∧ I s' := by
  obtain ⟨s₁, hstart, hs₁, hyields⟩ := h.start s hs
  obtain ⟨s', hfold', hs'⟩ := h.fold_eq hs₁ hyields hrounds hfold
  exact ⟨s₁, s', hstart, hfold', hs'⟩

/-! ### The positions of a list -/

/-- The indices of a list; there is nothing behind its length. -/
def ofList (E : Type) (L : List R) (last : R) : Restart ℕ E R where
  isEnd i := decide (L.length ≤ i)
  read i := .ok (L.getD i last)
  next i := .ok (i + 1)
  start _ := .ok 0

variable {last : R}

theorem yields_ofList {i : ℕ} : ∀ {L' : List R}, L.drop i = L' → (ofList E L last).Yields i L'
  | [], h => Cursor.yields_nil.mpr (decide_eq_true (List.drop_eq_nil_iff.mp h))
  | r :: L', h => by
    have hi : i < L.length := by
      rw [← Nat.not_le, ← List.drop_eq_nil_iff, h]
      exact List.cons_ne_nil _ _
    rw [List.drop_eq_getElem_cons hi] at h
    obtain ⟨hr, hL⟩ := List.cons.inj h
    refine Cursor.yields_cons.mpr ⟨decide_eq_false (Nat.not_le.mpr hi), ?_, i + 1, rfl, yields_ofList hL⟩
    have hget : L.getD i last = L[i] := by rw [List.getD_eq_getElem?_getD, List.getElem?_eq_getElem hi, Option.getD_some]
    exact congrArg Except.ok (hget.trans hr)

theorem enumerates_ofList (L : List R) (last : R) : (ofList E L last).Enumerates (fun _ => True) L where
  start _ _ := ⟨0, rfl, trivial, yields_ofList rfl⟩
  next _ _ _ _ _ := trivial

end Restart

end Rmdb.Lib
