import Mathlib.Data.List.Basic

/-!
# Linked lists in a store

A singly linked list threaded through the cells of a store: `Linked next last s l` says
that following `next` from `s` visits the cells of `l` in order and ends at `last`. The
list is the ghost of the walk; the store changes cell by cell, and a change outside the
list is not seen (`Linked.congr`).
-/

namespace Rmdb.Lib

universe u

variable {α : Type u}

/-- Following `next` from the start visits the cells of the list and ends at `last`. -/
def Linked (next : α → α) (last : α) : α → List α → Prop
  | s, [] => s = last
  | s, p :: l => s = p ∧ Linked next last (next p) l

namespace Linked

variable {next next' : α → α} {last : α}

/-- The walk reads the links of the cells it visits, and no others. -/
theorem congr : ∀ {l : List α} {s : α}, Linked next last s l → (∀ p ∈ l, next' p = next p) → Linked next' last s l
  | [], _, h, _ => h
  | p :: l, s, ⟨hs, h⟩, hp => by
    refine ⟨hs, ?_⟩
    rw [hp p List.mem_cons_self]
    exact congr h fun q hq => hp q (List.mem_cons_of_mem _ hq)

end Linked

end Rmdb.Lib
