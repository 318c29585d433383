import Mathlib.Data.Multiset.Filter
import Mathlib.Data.Multiset.MapFold
import Mathlib.Data.Option.Basic
import Mathlib.Logic.Function.Basic

/-!
# The bag of the values of a map

A map that has values at finitely many places stores a bag of values (`Stores`), whatever the
places are. The bag is determined, and follows what is done to the map: a value more, every
value changed, values taken out. A list of the places of some values, each once, lists the bag
of these.
-/

namespace Rmdb.Lib

open Function (update)

variable {κ α β : Type}

/-- The map has the values of the bag, each at a place of its own. -/
def Stores (f : κ → Option α) (b : Multiset α) : Prop :=
  ∃ places : List κ, places.Nodup ∧ (∀ k, k ∈ places ↔ (f k).isSome) ∧ b = (places.filterMap f : List α)

variable {f g : κ → Option α} {b b' : Multiset α}

/-- **A map stores one bag.** -/
theorem Stores.unique (h : Stores f b) (h' : Stores f b') : b = b' := by
  obtain ⟨places, hnd, hmem, rfl⟩ := h
  obtain ⟨places', hnd', hmem', rfl⟩ := h'
  have hperm : places.Perm places' := (List.perm_ext_iff_of_nodup hnd hnd').mpr fun k => by rw [hmem, hmem']
  exact Multiset.coe_eq_coe.mpr (hperm.filterMap f)

/-- A value at a free place. -/
theorem Stores.insert [DecidableEq κ] (h : Stores f b) {k : κ} (hk : f k = none) (a : α) :
    Stores (update f k (some a)) (a ::ₘ b) := by
  obtain ⟨places, hnd, hmem, rfl⟩ := h
  have hnot : k ∉ places := fun hin => by
    rw [hmem, hk] at hin
    cases hin
  have hsame : places.filterMap (update f k (some a)) = places.filterMap f :=
    List.filterMap_congr fun x hx => Function.update_of_ne (fun heq : x = k => hnot (heq ▸ hx)) ..
  refine ⟨k :: places, List.nodup_cons.mpr ⟨hnot, hnd⟩, ?_, ?_⟩
  · intro x
    by_cases hx : x = k
    · simp [hx]
    · simp [hx, hmem]
  · rw [List.filterMap_cons, Function.update_self, hsame]
    rfl

/-- Every value is changed. -/
theorem Stores.map (h : Stores f b) (t : α → β) {g : κ → Option β} (hg : ∀ k, g k = (f k).map t) :
    Stores g (b.map t) := by
  obtain ⟨places, hnd, hmem, rfl⟩ := h
  refine ⟨places, hnd, ?_, ?_⟩
  · intro k
    rw [hmem, hg, Option.isSome_map]
  · rw [Multiset.map_coe, List.map_filterMap]
    exact congrArg _ (List.filterMap_congr fun k _ => (hg k).symm)

/-- The places of the values that pass a test, each once. -/
theorem Stores.filterMap_eq (h : Stores f b) (p : α → Prop) [DecidablePred p] {places : List κ} (hnd : places.Nodup)
    (hmem : ∀ k, k ∈ places ↔ ∃ a, f k = some a ∧ p a) : ((places.filterMap f : List α) : Multiset α) = b.filter p := by
  obtain ⟨all, hall, hmemAll, rfl⟩ := h
  have hperm : places.Perm (all.filter fun k => (f k).any fun a => p a) := by
    refine (List.perm_ext_iff_of_nodup hnd (hall.filter _)).mpr ?_
    intro k
    rw [hmem, List.mem_filter, hmemAll]
    cases f k <;> simp
  rw [Multiset.filter_coe]
  refine Multiset.coe_eq_coe.mpr ((hperm.filterMap f).trans (.of_eq ?_))
  rw [List.filterMap_filter, List.filter_filterMap]
  refine List.filterMap_congr ?_
  intro k _
  cases hk : f k with
  | none => rfl
  | some a => by_cases hp : p a <;> simp [hp, Option.filter]

/-- Some values are taken out. -/
theorem Stores.filter (h : Stores f b) (p : α → Prop) [DecidablePred p] (hg : ∀ k a, g k = some a ↔ f k = some a ∧ p a) :
    Stores g (b.filter p) := by
  obtain ⟨all, hall, hmem, -⟩ := id h
  have hin : ∀ k, k ∈ all.filter (fun k => (g k).isSome) ↔ (g k).isSome := fun k => by
    rw [List.mem_filter, hmem, and_iff_right_iff_imp]
    intro hsome
    obtain ⟨a, ha⟩ := Option.isSome_iff_exists.mp hsome
    rw [((hg k a).mp ha).1]
    rfl
  refine ⟨_, hall.filter _, hin, ?_⟩
  rw [← h.filterMap_eq p (hall.filter _) fun k => ?_]
  · refine congrArg _ (List.filterMap_congr ?_)
    intro k hk
    obtain ⟨a, ha⟩ := Option.isSome_iff_exists.mp ((hin k).mp hk)
    rw [ha, ((hg k a).mp ha).1]
  · rw [hin, Option.isSome_iff_exists]
    exact exists_congr fun a => hg k a

/-- A map whose values differ in some respect stores a bag of values that do. -/
theorem Stores.nodup_map (h : Stores f b) {t : α → β} (hdiffer : ∀ k k' a a', f k = some a → f k' = some a' → t a = t a' → k = k') :
    (b.map t).Nodup := by
  obtain ⟨places, hnd, -, rfl⟩ := h
  rw [Multiset.map_coe, Multiset.coe_nodup, List.map_filterMap, List.Nodup, List.pairwise_filterMap]
  refine hnd.imp_of_mem fun {k k'} _ _ hne x hx y hy hxy => hne ?_
  obtain ⟨a, ha, rfl⟩ := Option.map_eq_some_iff.mp hx
  obtain ⟨a', ha', rfl⟩ := Option.map_eq_some_iff.mp hy
  exact hdiffer k k' a a' ha ha' hxy

end Rmdb.Lib
