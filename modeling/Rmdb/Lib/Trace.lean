import Mathlib.Data.List.Basic

/-!
# Runs of a labelled step relation

A run lists, for every step, the state it was taken in and its label, so that a condition
on the steps of a run is one on the elements of a list. `Trace.inv` is the rule for
invariants: what holds in the first state and is kept by every step that meets the
condition holds in the last state. `Trace.split` cuts a run at one of its steps. What a
run has done so far is told by its last step and the run before it
(`snoc_eq_append_cons`).
-/

namespace Rmdb.Lib

universe u v

/-- Where an element of a list with one more at its end is. -/
theorem snoc_eq_append_cons {α : Type u} {l P S : List α} {x y : α} :
    l ++ [x] = P ++ y :: S ↔ (S = [] ∧ x = y ∧ l = P) ∨ ∃ S', S = S' ++ [x] ∧ l = P ++ y :: S' := by
  rcases List.eq_nil_or_concat S with rfl | ⟨S', z, rfl⟩
  · rw [List.append_singleton_inj]
    simp [and_comm]
  · rw [List.concat_eq_append, ← List.cons_append, ← List.append_assoc, List.append_singleton_inj]
    constructor
    · rintro ⟨rfl, rfl⟩
      exact Or.inr ⟨S', rfl, rfl⟩
    · rintro (⟨h, -⟩ | ⟨S'', h, rfl⟩)
      · simp at h
      · obtain ⟨rfl, rfl⟩ := List.append_singleton_inj.mp h
        exact ⟨rfl, rfl⟩

/-- `Trace step s tr s'`: from `s` the steps `tr` lead to `s'`. -/
inductive Trace {S : Type u} {E : Type v} (step : S → E → S → Prop) (s : S) : List (S × E) → S → Prop where
  /-- No step. -/
  | nil : Trace step s [] s
  /-- One more step. -/
  | snoc {tr a e b} : Trace step s tr a → step a e b → Trace step s (tr ++ [(a, e)]) b

namespace Trace

variable {S : Type u} {E : Type v} {step : S → E → S → Prop} {s s' : S} {tr : List (S × E)}

/-- **The rule for invariants.** -/
theorem inv {I : S → Prop} {C : S → E → Prop} (htr : Trace step s tr s') (hC : ∀ x ∈ tr, C x.1 x.2) (hinit : I s)
    (hstep : ∀ {a e b}, I a → C a e → step a e b → I b) : I s' := by
  induction htr with
  | nil => exact hinit
  | snoc htr hs ih =>
    refine hstep (ih fun x hx => hC x (List.mem_append_left _ hx)) ?_ hs
    exact hC _ (List.mem_append_right _ List.mem_cons_self)

/-- The rule for invariants of every step. -/
theorem inv' {I : S → Prop} (htr : Trace step s tr s') (hinit : I s) (hstep : ∀ {a e b}, I a → step a e b → I b) :
    I s' :=
  inv (C := fun _ _ => True) htr (fun _ _ => trivial) hinit fun ha _ hs => hstep ha hs

/-- A run cut at a place. -/
theorem of_append {x : S × E} {P R : List (S × E)} (htr : Trace step s (P ++ x :: R) s') :
    Trace step s P x.1 ∧ ∃ b, step x.1 x.2 b ∧ Trace step b R s' := by
  obtain ⟨tr, htr', heq⟩ : ∃ tr, Trace step s tr s' ∧ tr = P ++ x :: R := ⟨_, htr, rfl⟩
  clear htr
  induction htr' generalizing R with
  | nil => simp at heq
  | @snoc tr a e b htr hs ih =>
    rcases snoc_eq_append_cons.mp heq with ⟨rfl, rfl, rfl⟩ | ⟨R', rfl, rfl⟩
    · exact ⟨htr, b, hs, .nil⟩
    · obtain ⟨hP, b', hx, hR⟩ := ih rfl
      exact ⟨hP, b', hx, hR.snoc hs⟩

/-- A run cut at one of its steps. -/
theorem split (htr : Trace step s tr s') {x : S × E} (hx : x ∈ tr) :
    ∃ tr₁ tr₂ b, Trace step s tr₁ x.1 ∧ step x.1 x.2 b ∧ Trace step b tr₂ s' := by
  induction htr with
  | nil => cases hx
  | @snoc tr a e b htr hs ih =>
    rcases List.mem_append.mp hx with hx | hx
    · obtain ⟨tr₁, tr₂, b', h₁, h₂, h₃⟩ := ih hx
      exact ⟨tr₁, _, b', h₁, h₂, h₃.snoc hs⟩
    · obtain rfl := List.mem_singleton.mp hx
      exact ⟨tr, [], b, htr, hs, .nil⟩

end Trace

end Rmdb.Lib
