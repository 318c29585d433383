import Mathlib.Data.List.Basic
import Mathlib.Data.List.Nodup

/-!
# Records linked backwards

Records in a log, each with a key and the key of the record before it in its chain. A chain
is listed from its newest record to its oldest, whose link is a key that no record has.
If no two records of the log have the same key, following the links finds the chain again
(`BackLinked.follow_eq`).
-/

namespace Rmdb.Lib

universe u v

variable {ρ : Type u} {κ : Type v} (key prev : ρ → κ) (stop : κ)

/-- The key of the newest record of a chain. -/
def headKey (l : List ρ) : κ := (l.head?.map key).getD stop

/-- Each record is linked to the next one of the list, and the last one to no record. -/
def BackLinked : List ρ → Prop
  | [] => True
  | r :: l => prev r = headKey key stop l ∧ BackLinked l

/-- Look a key up, go on with the link of its record, and so on; at most so many times. -/
def follow [DecidableEq κ] (log : List ρ) : ℕ → κ → List ρ
  | 0, _ => []
  | bound + 1, k =>
    if k = stop then []
    else match log.find? fun r => key r = k with
      | none => []
      | some r => r :: follow log bound (prev r)

variable {key prev stop} {log l : List ρ}

/-- A key that no two records have leads to its record. -/
theorem find_key [DecidableEq κ] (hnd : (log.map key).Nodup) {r : ρ} (hr : r ∈ log) :
    log.find? (fun r' => key r' = key r) = some r := by
  induction log with
  | nil => cases hr
  | cons x log ih =>
    rw [List.map_cons, List.nodup_cons] at hnd
    rcases List.mem_cons.mp hr with rfl | hr
    · rw [List.find?_cons, decide_eq_true (rfl : key r = key r)]
    · have hne : key x ≠ key r := fun heq => hnd.1 (heq ▸ List.mem_map_of_mem hr)
      rw [List.find?_cons_of_neg (by simpa using hne), ih hnd.2 hr]

namespace BackLinked

/-- **Following the links** from the newest record of a chain visits the chain, newest to oldest. -/
theorem follow_eq [DecidableEq κ] (hnd : (log.map key).Nodup) (hstop : ∀ r ∈ log, key r ≠ stop) :
    ∀ {l : List ρ} {bound : ℕ}, BackLinked key prev stop l → (∀ r ∈ l, r ∈ log) → l.length ≤ bound →
      follow key prev stop log bound (headKey key stop l) = l
  | [], 0, _, _, _ => rfl
  | [], bound + 1, _, _, _ => by
    rw [follow]
    exact if_pos rfl
  | r :: l, bound + 1, h, hsub, hlen => by
    have hr := hsub r List.mem_cons_self
    have hhead : headKey key stop (r :: l) = key r := rfl
    rw [hhead, follow, if_neg (hstop r hr), find_key hnd hr]
    simp only
    rw [h.1, h.2.follow_eq hnd hstop (fun x hx => hsub x (List.mem_cons_of_mem _ hx)) (Nat.le_of_succ_le_succ hlen)]

/-- The oldest record is linked to no record. -/
theorem prev_getLast (h : BackLinked key prev stop l) {r : ρ} (hr : l.getLast? = some r) : prev r = stop := by
  induction l with
  | nil => cases hr
  | cons x l ih =>
    cases l with
    | nil =>
      obtain rfl : x = r := Option.some.inj hr
      exact h.1
    | cons y l =>
      rw [List.getLast?_cons_cons] at hr
      exact ih h.2 hr

end BackLinked

end Rmdb.Lib
