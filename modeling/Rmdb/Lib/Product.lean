import Mathlib.Data.Multiset.Bind
import Mathlib.Data.List.Nodup

/-!
# Products of named lists

The rows of a product of lists `rows t`, one for each name `t`, as lists of named values.
A row is looked up by name (`valueAt`), so two rows that list the same values in another
order are the same row up to the order of their columns. The product over a permuted list
of names has, in this sense, the same rows (`product_perm`).
-/

namespace Rmdb.Lib

universe u v

variable {T : Type u} {V : Type v}

/-- The rows of the product over a list of names. -/
def product (rows : T → List V) : List T → List (List (T × V))
  | [] => [[]]
  | t :: ts => (rows t).flatMap fun v => (product rows ts).map ((t, v) :: ·)

variable {rows : T → List V}

theorem mem_product {row : List (T × V)} {ts : List T} :
    row ∈ product rows ts ↔ row.map (·.1) = ts ∧ ∀ e ∈ row, e.2 ∈ rows e.1 := by
  induction ts generalizing row with
  | nil =>
    simp only [product, List.mem_singleton, List.map_eq_nil_iff]
    constructor
    · rintro rfl
      exact ⟨rfl, by simp⟩
    · exact And.left
  | cons t ts ih =>
    simp only [product, List.mem_flatMap, List.mem_map, ih]
    constructor
    · rintro ⟨v, hv, row, ⟨rfl, hrow⟩, rfl⟩
      refine ⟨rfl, ?_⟩
      intro e he
      rcases List.mem_cons.mp he with rfl | he
      · exact hv
      · exact hrow e he
    · rintro ⟨hts, hrow⟩
      obtain ⟨e, row', rfl, rfl, rfl⟩ := List.map_eq_cons_iff.mp hts
      exact ⟨e.2, hrow e List.mem_cons_self, row', ⟨rfl, fun e he => hrow e (List.mem_cons_of_mem _ he)⟩, rfl⟩

theorem product_append (A B : List T) :
    product rows (A ++ B) = (product rows A).flatMap fun a => (product rows B).map (a ++ ·) := by
  induction A with
  | nil => simp [product]
  | cons t A ih =>
    simp only [List.cons_append, product, ih, List.map_flatMap, List.flatMap_assoc, List.flatMap_map, List.map_map]
    rfl

theorem flatMap_eq_filter_flatMap {α : Type u} {β : Type v} {p : α → Bool} {F G : α → List β} :
    ∀ {L : List α}, (∀ a ∈ L, F a = if p a then G a else []) → L.flatMap F = (L.filter p).flatMap G
  | [], _ => rfl
  | a :: L, h => by
    have ih := flatMap_eq_filter_flatMap fun a ha => h a (List.mem_cons_of_mem _ ha)
    rw [List.flatMap_cons, h a List.mem_cons_self, ih, List.filter_cons]
    cases p a <;> simp

/-- A row of a join: filters on the two sides, and one on both. -/
theorem filter_product_append (rows : T → List V) {p q r : List (T × V) → Bool} {A B : List T}
    (hp : ∀ a ∈ product rows A, ∀ b ∈ product rows B, p (a ++ b) = p a)
    (hq : ∀ a ∈ product rows A, ∀ b ∈ product rows B, q (a ++ b) = q b) :
    (product rows (A ++ B)).filter (fun row => r row && (p row && q row)) =
      ((product rows A).filter p).flatMap fun a =>
        (((product rows B).filter q).map (a ++ ·)).filter r := by
  rw [product_append, List.filter_flatMap]
  refine flatMap_eq_filter_flatMap ?_
  intro a ha
  rw [List.filter_map, List.filter_map, List.filter_filter]
  have hfilter : ∀ b ∈ product rows B, ((fun row => r row && (p row && q row)) ∘ (a ++ ·)) b =
      (p a && (r (a ++ b) && q b)) := fun b hb => by
    simp only [Function.comp_apply, hp a ha b hb, hq a ha b hb]
    cases p a <;> simp
  rw [List.filter_congr hfilter]
  cases p a <;> simp

variable [DecidableEq T]

/-- The value under a name. -/
def valueAt (row : List (T × V)) (t : T) : Option V := (row.find? (·.1 = t)).map (·.2)

theorem valueAt_cons (t : T) (v : V) (row : List (T × V)) :
    valueAt ((t, v) :: row) = fun t' => if t = t' then some v else valueAt row t' := by
  funext t'
  unfold valueAt
  by_cases h : t = t' <;> simp [h]

theorem map_valueAt_cons (t : T) (ts : List T) : (product rows (t :: ts)).map valueAt =
    (rows t).flatMap fun v => ((product rows ts).map valueAt).map fun g t' => if t = t' then some v else g t' := by
  simp only [product, List.map_flatMap, List.map_map]
  refine congrArg (List.flatMap · (rows t)) ?_
  funext v
  refine congrArg (List.map · (product rows ts)) ?_
  funext row
  exact valueAt_cons t v row

/-- **The order of the names does not matter** for the rows of a product. -/
theorem product_perm {A B : List T} (h : A.Perm B) (hnd : A.Nodup) :
    ((product rows A).map valueAt).Perm ((product rows B).map valueAt) := by
  induction h with
  | nil => exact List.Perm.refl _
  | cons t _ ih =>
    rw [map_valueAt_cons, map_valueAt_cons]
    exact List.Perm.flatMap_left _ fun v _ => (ih (List.nodup_cons.mp hnd).2).map _
  | swap x y l =>
    have hne : y ≠ x := fun h => (List.nodup_cons.mp hnd).1 (by simp [h])
    simp only [map_valueAt_cons, List.map_flatMap]
    -- the two names are different, so the two values may be set in either order
    have hcomm : ∀ (v w : V) (g : T → Option V), (fun t => if y = t then some w else if x = t then some v else g t) =
        fun t => if x = t then some v else if y = t then some w else g t := fun v w g => by
      funext t
      by_cases hy : y = t
      · have hx : x ≠ t := fun hx => hne (hy.trans hx.symm)
        simp [hy, hx]
      · simp [hy]
    rw [← Multiset.coe_eq_coe]
    simp only [← Multiset.coe_bind]
    rw [Multiset.bind_bind]
    refine congrArg _ (funext fun v => congrArg _ (funext ?_))
    intro w
    simp only [List.map_map]
    exact congrArg _ (List.map_congr_left fun row _ => hcomm v w (valueAt row))
  | trans h₁ _ ih₁ ih₂ => exact (ih₁ hnd).trans (ih₂ (h₁.nodup_iff.mp hnd))

end Rmdb.Lib
