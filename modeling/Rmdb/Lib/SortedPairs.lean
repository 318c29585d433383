import Mathlib.Data.List.Basic
import Mathlib.Order.Lattice

/-!
# Sorted lists of pairs

Pairs of a key and a value in strictly increasing order of key, as the nodes of a
search tree hold them: where a binary search lands (`bsearch_eq`), how a sorted
list splits at a key (`SortedKeys.split_lt`, `SortedKeys.split_le`), what inserting and
erasing at the split does, and which pair a key is routed to (`Route`): the last
one whose key is not above it, or the first of all. Routing first among blocks by
their leading keys and then inside the block is routing in the whole list
(`Route.flatMap`), which is why a descent through the levels of a search tree ends
where one search in the bottom level would.
-/

namespace Rmdb.Lib

universe u v w

variable {K : Type u} {V : Type v}

/-! ### Binary search -/

/-- The binary search for the first index at which `p` fails; the first argument
bounds the number of iterations. -/
def bsearch (p : ℕ → Bool) : ℕ → ℕ → ℕ → ℕ
  | 0, left, _ => left
  | n + 1, left, right =>
    if left < right then
      if p ((left + right) / 2) then bsearch p n ((left + right) / 2 + 1) right
      else bsearch p n left ((left + right) / 2)
    else left

/-- If `p` holds exactly below `t`, the search ends at `t`. -/
theorem bsearch_eq {p : ℕ → Bool} {t : ℕ} : ∀ {n left right : ℕ}, right - left ≤ n → left ≤ t → t ≤ right →
    (∀ i, left ≤ i → i < right → (p i = true ↔ i < t)) → bsearch p n left right = t
  | 0, left, right, hn, hl, hr, _ => by rw [bsearch]; omega
  | n + 1, left, right, hn, hl, hr, hp => by
    unfold bsearch
    by_cases hlr : left < right
    · rw [if_pos hlr]
      have hmid := hp ((left + right) / 2) (by omega) (by omega)
      by_cases hm : p ((left + right) / 2) = true
      · rw [if_pos hm]
        have := hmid.mp hm
        exact bsearch_eq (by omega) (by omega) hr fun i h1 h2 => hp i (by omega) h2
      · rw [if_neg hm]
        have := mt hmid.mpr hm
        exact bsearch_eq (by omega) hl (by omega) fun i h1 h2 => hp i h1 (by omega)
    · rw [if_neg hlr]
      omega

/-- The search looks only between its ends. -/
theorem bsearch_congr {p q : ℕ → Bool} : ∀ {n left right : ℕ}, (∀ i, left ≤ i → i < right → p i = q i) →
    bsearch p n left right = bsearch q n left right
  | 0, _, _, _ => rfl
  | n + 1, left, right, h => by
    rw [bsearch, bsearch]
    by_cases hlr : left < right
    · rw [if_pos hlr, if_pos hlr, h ((left + right) / 2) (by omega) (by omega),
        bsearch_congr (n := n) fun i h1 h2 => h i (by omega) h2, bsearch_congr (n := n) fun i h1 h2 => h i h1 (by omega)]
    · rw [if_neg hlr, if_neg hlr]

/-! ### Sorted pairs -/

section Sorted

variable [LinearOrder K]

/-- The keys increase strictly. -/
def SortedKeys (l : List (K × V)) : Prop := l.Pairwise fun a b => a.1 < b.1

namespace SortedKeys

theorem nil : SortedKeys ([] : List (K × V)) := List.Pairwise.nil

theorem append_iff {A B : List (K × V)} :
    SortedKeys (A ++ B) ↔ SortedKeys A ∧ SortedKeys B ∧ ∀ a ∈ A, ∀ b ∈ B, a.1 < b.1 :=
  List.pairwise_append

theorem cons_iff {a : K × V} {B : List (K × V)} :
    SortedKeys (a :: B) ↔ (∀ b ∈ B, a.1 < b.1) ∧ SortedKeys B :=
  List.pairwise_cons

theorem sublist {A B : List (K × V)} (h : SortedKeys B) (hs : A.Sublist B) : SortedKeys A :=
  List.Pairwise.sublist hs h

/-- A predicate that holds of smaller keys splits a sorted list in two. -/
theorem split {l : List (K × V)} (h : SortedKeys l) (q : K → Prop) [DecidablePred q]
    (hq : ∀ a b, a < b → q b → q a) :
    ∃ A B, l = A ++ B ∧ (∀ a ∈ A, q a.1) ∧ ∀ b ∈ B, ¬ q b.1 := by
  induction l with
  | nil => exact ⟨[], [], rfl, by simp, by simp⟩
  | cons x l ih =>
    obtain ⟨hx, hl⟩ := cons_iff.mp h
    by_cases hqx : q x.1
    · obtain ⟨A, B, rfl, hA, hB⟩ := ih hl
      refine ⟨x :: A, B, rfl, ?_, hB⟩
      intro a ha
      rcases List.mem_cons.mp ha with rfl | ha
      · exact hqx
      · exact hA a ha
    · refine ⟨[], x :: l, rfl, by simp, ?_⟩
      intro b hb
      rcases List.mem_cons.mp hb with rfl | hb
      · exact hqx
      · exact fun hqb => hqx (hq _ _ (hx b hb) hqb)

/-- A sorted list splits into the keys below `k` and the others. -/
theorem split_lt {l : List (K × V)} (h : SortedKeys l) (k : K) :
    ∃ A B, l = A ++ B ∧ (∀ a ∈ A, a.1 < k) ∧ ∀ b ∈ B, k ≤ b.1 := by
  obtain ⟨A, B, hl, hA, hB⟩ := h.split (· < k) fun a b hab hb => hab.trans hb
  exact ⟨A, B, hl, hA, fun b hb => not_lt.mp (hB b hb)⟩

/-- A sorted list splits into the keys not above `k` and the others. -/
theorem split_le {l : List (K × V)} (h : SortedKeys l) (k : K) :
    ∃ A B, l = A ++ B ∧ (∀ a ∈ A, a.1 ≤ k) ∧ ∀ b ∈ B, k < b.1 := by
  obtain ⟨A, B, hl, hA, hB⟩ := h.split (· ≤ k) fun a b hab hb => hab.le.trans hb
  exact ⟨A, B, hl, hA, fun b hb => not_le.mp (hB b hb)⟩

/-- Inserting an absent key at its place keeps the list sorted. -/
theorem insert {A B : List (K × V)} {k : K} (v : V) (h : SortedKeys (A ++ B)) (hA : ∀ a ∈ A, a.1 < k)
    (hB : ∀ b ∈ B, k < b.1) : SortedKeys (A ++ (k, v) :: B) := by
  obtain ⟨h1, h2, h3⟩ := append_iff.mp h
  refine append_iff.mpr ⟨h1, cons_iff.mpr ⟨hB, h2⟩, ?_⟩
  intro a ha b hb
  rcases List.mem_cons.mp hb with rfl | hb
  · exact hA a ha
  · exact h3 a ha b hb

end SortedKeys

/-- The value under a key. -/
def lookupKey (l : List (K × V)) (k : K) : Option V := (l.find? fun e => e.1 = k).map (·.2)

theorem lookupKey_append (A B : List (K × V)) (k : K) :
    lookupKey (A ++ B) k = (lookupKey A k).or (lookupKey B k) := by
  unfold lookupKey
  rw [List.find?_append]
  cases A.find? fun e => e.1 = k <;> simp

theorem lookupKey_eq_none {l : List (K × V)} {k : K} : lookupKey l k = none ↔ ∀ e ∈ l, e.1 ≠ k := by
  simp [lookupKey]

theorem lookupKey_of_ne {l : List (K × V)} {k : K} (h : ∀ e ∈ l, e.1 ≠ k) : lookupKey l k = none :=
  lookupKey_eq_none.mpr h

theorem lookupKey_cons (e : K × V) (l : List (K × V)) (k : K) :
    lookupKey (e :: l) k = if e.1 = k then some e.2 else lookupKey l k := by
  unfold lookupKey
  by_cases h : e.1 = k <;> simp [h]

/-- In a sorted list the value under a key is the one beside it. -/
theorem SortedKeys.lookupKey_eq_some {l : List (K × V)} (h : SortedKeys l) {k : K} {v : V} :
    lookupKey l k = some v ↔ (k, v) ∈ l := by
  induction l with
  | nil => simp [lookupKey]
  | cons e l ih =>
    obtain ⟨he, hl⟩ := SortedKeys.cons_iff.mp h
    rw [lookupKey_cons, List.mem_cons, ← ih hl]
    by_cases hk : e.1 = k
    · subst hk
      have hnone : lookupKey l e.1 = none := lookupKey_of_ne fun x hx => (he x hx).ne'
      simp [hnone, Prod.ext_iff, eq_comm]
    · have hne : (k, v) ≠ e := fun heq => hk (congrArg Prod.fst heq).symm
      simp [hk, hne]

/-- Putting an absent key anywhere into the list. -/
theorem lookupKey_insert {C D : List (K × V)} {k : K} (h : lookupKey (C ++ D) k = none) (v : V) (k' : K) :
    lookupKey (C ++ (k, v) :: D) k' = if k' = k then some v else lookupKey (C ++ D) k' := by
  rw [lookupKey_append] at h
  obtain ⟨hC, hD⟩ := Option.or_eq_none_iff.mp h
  rw [lookupKey_append, lookupKey_cons, lookupKey_append]
  by_cases hk : k' = k
  · subst hk
    simp [hC]
  · simp [hk, Ne.symm hk]

/-! ### Routing -/

/-- `Route l k x`: the key `k` is routed to `x`, the value of the last pair whose key is
not above `k`, or of the first pair if all are above. -/
def Route (l : List (K × V)) (k : K) (x : V) : Prop :=
  ∃ A s B, l = A ++ (s, x) :: B ∧ (A ≠ [] → s ≤ k) ∧ ∀ b ∈ B, k < b.1

/-- Routing among blocks by their leading keys, and then inside the block, is routing in
the concatenation. -/
theorem Route.flatMap {β : Type w} {L : List β} {f : β → List (K × V)} {g : β → K} {k : K} {b : β} {x : V}
    (hlead : ∀ b ∈ L, ∃ v t, f b = (g b, v) :: t) (hsort : ∀ b ∈ L, SortedKeys (f b))
    (hb : Route (L.map fun b => (g b, b)) k b) (hx : Route (f b) k x) : Route (L.flatMap f) k x := by
  obtain ⟨A, s, B, hL, hA, hB⟩ := hb
  obtain ⟨L₁, L', rfl, rfl, hL'⟩ := List.map_eq_append_iff.mp hL
  obtain ⟨b', L₂, rfl, hb', rfl⟩ := List.map_eq_cons_iff.mp hL'
  obtain ⟨rfl, rfl⟩ : g b' = s ∧ b' = b := by simpa using hb'
  obtain ⟨C, s, D, hf, hC, hD⟩ := hx
  refine ⟨L₁.flatMap f ++ C, s, D ++ L₂.flatMap f, by simp [hf], ?_, ?_⟩
  · intro hne
    by_cases hC0 : C = []
    · -- the pair is the first of its block, so its key is the block's leading key
      subst hC0
      obtain ⟨v, t, hvt⟩ := hlead b' (by simp)
      have hs : s = g b' := by
        have := hf.symm.trans hvt
        simp only [List.nil_append, List.cons.injEq, Prod.mk.injEq] at this
        exact this.1.1
      rw [hs]
      refine hA ?_
      rintro h0
      simp only [List.map_eq_nil_iff] at h0
      simp [h0] at hne
    · exact hC hC0
  · intro e he
    rcases List.mem_append.mp he with he | he
    · exact hD e he
    · obtain ⟨c, hc, hec⟩ := List.mem_flatMap.mp he
      obtain ⟨v, t, hvt⟩ := hlead c (by simp [hc])
      have hk : k < g c := hB (g c, c) (List.mem_map.mpr ⟨c, hc, rfl⟩)
      have hs := hsort c (by simp [hc])
      rw [hvt] at hec hs
      rcases List.mem_cons.mp hec with rfl | hec
      · exact hk
      · exact hk.trans ((SortedKeys.cons_iff.mp hs).1 e hec)

end Sorted

end Rmdb.Lib
