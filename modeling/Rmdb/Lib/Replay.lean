import Mathlib.Data.List.Basic
import Mathlib.Logic.Function.Basic

/-!
# Replaying a log of changes

A cell holds a value or nothing, and a log says how it was changed: a value was put into
an empty cell, taken out, or replaced. After a crash the cell is in some state, and the
log is replayed over it: first forward (`redo`), where a change is made only if the cell
looks as if it had not been made yet, then backward (`undo`) for the changes at the end of
the log that are to be taken back. There is no record of which changes the cell has seen.

`redo_visited`: if the cell is in a state it went through, redoing the whole log brings it
to its last state. Each single redo leaves the cell as it is or takes it to the state
after that change (`redo_eq`), so it stays among the states still to come.

`recover_iff` says the same for a cell in any state at all, exactly: what the redo makes
of it depends only on whether the log deletes, begins with an insertion, or has no
change. After any single redo or undo of a recovery it can be begun again (`recovered_redo`,
`recovered_undo`): what comes out in the end is the same, right or wrong.

A store is a family of cells; a replay over a store is a replay in each cell
(`replayAt_apply`).
-/

namespace Rmdb.Lib

universe u v

/-- A change of a cell. -/
inductive Change (V : Type u) where
  /-- A value is put into the empty cell. -/
  | insert (v : V)
  /-- The value is taken out. -/
  | delete (old : V)
  /-- The value is replaced. -/
  | update (old new : V)
deriving DecidableEq

namespace Change

variable {V : Type u}

/-- The cell after the change. -/
def apply : Change V → Option V → Option V
  | insert v, _ => some v
  | delete _, _ => none
  | update _ new, _ => some new

/-- The change can be made in a cell. -/
def Valid : Change V → Option V → Prop
  | insert _, s => s = none
  | delete old, s => s = some old
  | update old _, s => s = some old

/-- Make the change if the cell looks as if it had not been made. -/
def redo : Change V → Option V → Option V
  | insert v, none => some v
  | insert _, some x => some x
  | delete _, _ => none
  | update _ new, s => s.map fun _ => new

/-- Take the change back if the cell looks as if it had been made. -/
def undo : Change V → Option V → Option V
  | insert _, _ => none
  | delete old, none => some old
  | delete _, some x => some x
  | update old _, s => s.map fun _ => old

/-- Run through a list of changes. -/
def replay (g : Change V → Option V → Option V) (s : Option V) (cs : List (Change V)) : Option V :=
  cs.foldl (fun s c => g c s) s

/-- The changes can be made one after the other. -/
def ValidTrace : Option V → List (Change V) → Prop
  | _, [] => True
  | s, c :: cs => c.Valid s ∧ ValidTrace (c.apply s) cs

@[simp] theorem replay_nil (g : Change V → Option V → Option V) (s : Option V) : replay g s [] = s := rfl

@[simp] theorem replay_cons (g : Change V → Option V → Option V) (s : Option V) (c : Change V) (cs : List (Change V)) :
    replay g s (c :: cs) = replay g (g c s) cs := rfl

theorem replay_append (g : Change V → Option V → Option V) (s : Option V) (A B : List (Change V)) :
    replay g s (A ++ B) = replay g (replay g s A) B :=
  List.foldl_append

theorem validTrace_append {A B : List (Change V)} : ∀ {s : Option V},
    ValidTrace s (A ++ B) ↔ ValidTrace s A ∧ ValidTrace (replay apply s A) B := by
  induction A with
  | nil => simp [ValidTrace]
  | cons c A ih =>
    intro s
    simp only [List.cons_append, ValidTrace, ih, replay_cons, and_assoc]

/-! ### Redo -/

theorem redo_of_valid {c : Change V} {s : Option V} (h : c.Valid s) : c.redo s = c.apply s := by
  cases c with
  | insert v => cases h; rfl
  | delete old => rfl
  | update old new => cases h; rfl

/-- A redo leaves a cell as it is or takes it to the state after the change. -/
theorem redo_eq (c : Change V) (s x : Option V) : c.redo x = x ∨ c.redo x = c.apply s := by
  cases c with
  | insert v =>
    cases x with
    | none => exact Or.inr rfl
    | some x => exact Or.inl rfl
  | delete old => exact Or.inr rfl
  | update old new =>
    cases x with
    | none => exact Or.inl rfl
    | some x => exact Or.inr rfl

theorem redo_valid {cs : List (Change V)} : ∀ {s : Option V}, ValidTrace s cs → replay redo s cs = replay apply s cs := by
  induction cs with
  | nil => exact fun _ => rfl
  | cons c cs ih =>
    rintro s ⟨hc, hcs⟩
    rw [replay_cons, replay_cons, redo_of_valid hc, ih hcs]

/-- **Redo converges**: from any state a cell went through, to its last one. -/
theorem redo_visited {cs : List (Change V)} : ∀ {s : Option V} {A B : List (Change V)}, ValidTrace s cs → cs = A ++ B →
    replay redo (replay apply s A) cs = replay apply s cs := by
  -- the states still to come are those of the rest of the log, for every state the redo can be in
  induction cs with
  | nil =>
    rintro s A B - h
    obtain ⟨rfl, -⟩ := List.append_eq_nil_iff.mp h.symm
    rfl
  | cons c cs ih =>
    rintro s A B ⟨hc, hcs⟩ h
    cases A with
    | nil =>
      rw [replay_nil, replay_cons, redo_of_valid hc, replay_cons]
      exact ih (A := []) hcs rfl
    | cons a A =>
      obtain ⟨rfl, rfl⟩ := List.cons.inj h
      rw [replay_cons, replay_cons, replay_cons]
      rcases redo_eq c s (replay apply (c.apply s) A) with he | he
      · rw [he]
        exact ih hcs rfl
      · rw [he]
        exact ih (A := []) hcs rfl

/-! ### Undo -/

theorem undo_of_valid {c : Change V} {s : Option V} (h : c.Valid s) : c.undo (c.apply s) = s := by
  cases c with
  | insert v => exact h.symm
  | delete old => exact h.symm
  | update old new => exact h.symm

/-- Undoing the changes in reverse order gives back the first state. -/
theorem undo_valid {cs : List (Change V)} : ∀ {s : Option V}, ValidTrace s cs →
    replay undo (replay apply s cs) cs.reverse = s := by
  induction cs with
  | nil => exact fun _ => rfl
  | cons c cs ih =>
    rintro s ⟨hc, hcs⟩
    rw [List.reverse_cons, replay_append, replay_cons apply, ih hcs, replay_cons, replay_nil, undo_of_valid hc]

/-! ### Recovery of a cell in any state -/

/-- A deletion in the log makes the redo independent of the state it starts in. -/
theorem redo_of_delete {s d : Option V} {A B : List (Change V)} {old : V} (h : ValidTrace s (A ++ delete old :: B)) :
    replay redo d (A ++ delete old :: B) = replay apply s (A ++ delete old :: B) := by
  obtain ⟨-, -, hB⟩ := validTrace_append.mp h
  rw [replay_append, replay_append, replay_cons, replay_cons]
  exact redo_valid hB

/-- When recovery brings a cell in state `d` to the state after the changes `C`, of a log `C ++ U` that starts in state
`s`: the log deletes; or it is empty and `d` is `s`; or it is a single insertion, which is taken back or has been
made, or not, in `d`; or it begins with an insertion and goes on; or it updates, and `d` holds a value. -/
def Safe (s d : Option V) (C U : List (Change V)) : Prop :=
  (∃ old, delete old ∈ C ++ U) ∨
    match C ++ U with
    | [] => d = s
    | [insert v] => U ≠ [] ∨ d = none ∨ d = some v
    | insert _ :: _ :: _ => True
    | _ => d ≠ none

theorem replay_redo_none {cs : List (Change V)} (h : ∀ c ∈ cs, ∃ old new, c = update old new) :
    replay redo none cs = none := by
  induction cs with
  | nil => rfl
  | cons c cs ih =>
    obtain ⟨old, new, rfl⟩ := h c List.mem_cons_self
    exact ih fun c hc => h c (List.mem_cons_of_mem _ hc)

theorem replay_undo_none {cs : List (Change V)} (h : ∀ c ∈ cs, ∃ old new, c = update old new) :
    replay undo none cs = none := by
  induction cs with
  | nil => rfl
  | cons c cs ih =>
    obtain ⟨old, new, rfl⟩ := h c List.mem_cons_self
    exact ih fun c hc => h c (List.mem_cons_of_mem _ hc)

/-- A trace without deletions from a full cell updates only, and ends in a full cell. -/
theorem updates_of_some {cs : List (Change V)} : ∀ {x : V}, ValidTrace (some x) cs → (∀ old, delete old ∉ cs) →
    (∀ c ∈ cs, ∃ old new, c = update old new) ∧ replay apply (some x) cs ≠ none := by
  induction cs with
  | nil => exact fun _ _ => ⟨by simp, by simp⟩
  | cons c cs ih =>
    rintro x ⟨hc, hcs⟩ hdel
    cases c with
    | insert v => cases hc
    | delete old => exact absurd List.mem_cons_self (hdel old)
    | update old new =>
      obtain ⟨h1, h2⟩ := ih hcs fun o ho => hdel o (List.mem_cons_of_mem _ ho)
      refine ⟨?_, h2⟩
      intro c hc
      rcases List.mem_cons.mp hc with rfl | hc
      · exact ⟨old, new, rfl⟩
      · exact h1 c hc

/-- **Recovery, exactly**: redo of the whole log and undo of its end bring a cell from the state `d` to the state after
`C` if and only if `Safe` says so. -/
theorem recover_iff {s : Option V} {C U : List (Change V)} (h : ValidTrace s (C ++ U)) (d : Option V) :
    replay undo (replay redo d (C ++ U)) U.reverse = replay apply s C ↔ Safe s d C U := by
  obtain ⟨-, hU⟩ := validTrace_append.mp h
  -- once the redo has reached the last state, the undo is right
  have hdone : replay redo d (C ++ U) = replay apply s (C ++ U) →
      replay undo (replay redo d (C ++ U)) U.reverse = replay apply s C := by
    intro he
    rw [he, replay_append, undo_valid hU]
  by_cases hdel : ∃ old, delete old ∈ C ++ U
  · obtain ⟨old, hold⟩ := hdel
    obtain ⟨A, B, hAB⟩ := List.append_of_mem hold
    refine ⟨fun _ => Or.inl ⟨old, hold⟩, fun _ => hdone ?_⟩
    rw [hAB] at h ⊢
    exact redo_of_delete h
  · have hdel' : ∀ old, delete old ∉ C ++ U := fun old ho => hdel ⟨old, ho⟩
    simp only [Safe, hdel, false_or]
    rcases hcs : C ++ U with _ | ⟨c, cs⟩
    · obtain ⟨rfl, rfl⟩ := List.append_eq_nil_iff.mp hcs
      simp
    · rw [hcs] at h hdel' hdone
      obtain ⟨hc, hvalid⟩ := h
      cases c with
      | delete old => exact absurd List.mem_cons_self (hdel' old)
      | insert v =>
        obtain rfl : s = none := hc
        cases cs with
        | nil =>
          -- a single insertion, taken back or not
          rcases List.append_eq_singleton_iff.mp hcs with ⟨rfl, rfl⟩ | ⟨rfl, rfl⟩
          · simp [undo]
          · cases d with
            | none => simp [redo, apply]
            | some x => simp [redo, apply]
        | cons c cs =>
          simp only [iff_true]
          refine hdone ?_
          obtain ⟨hc, hvalid⟩ := hvalid
          cases c with
          | insert w => cases hc
          | delete old => exact absurd (List.mem_cons_of_mem _ List.mem_cons_self) (hdel' old)
          | update old new =>
            have hrest : replay redo (some new) cs = replay apply (some new) cs := redo_valid hvalid
            cases d <;> exact hrest
      | update old new =>
        obtain rfl : s = some old := hc
        cases d with
        | none =>
          have hvC : ValidTrace (some old) (C ++ U) := by
            rw [hcs]
            exact ⟨rfl, hvalid⟩
          have hdelC : ∀ o, delete o ∉ C ++ U := fun o => hcs ▸ hdel' o
          have hall := (updates_of_some hvC hdelC).1
          have hC : replay apply (some old) C ≠ none :=
            (updates_of_some (validTrace_append.mp hvC).1 fun o ho => hdelC o (List.mem_append_left _ ho)).2
          rw [← hcs, replay_redo_none hall, replay_undo_none fun c hc =>
            hall c (List.mem_append_right _ (List.mem_reverse.mp hc)), hcs]
          simp [Ne.symm hC]
        | some x =>
          simp only [ne_eq, reduceCtorEq, not_false_eq_true, iff_true]
          have hrest : replay redo (some new) cs = replay apply (some new) cs := redo_valid hvalid
          exact hdone hrest

/-! ### Recovery that is begun again -/

/-- Redo of the log `C ++ U`, then undo of its end `U`. -/
def recovered (C U : List (Change V)) (d : Option V) : Option V := replay undo (replay redo d (C ++ U)) U.reverse

/-- A redo leaves a safe state safe, and does nothing in a state that is not. -/
theorem Safe.redo {s d : Option V} {C U : List (Change V)} (h : ValidTrace s (C ++ U)) {c : Change V} (hc : c ∈ C ++ U) :
    (Safe s d C U ∧ Safe s (c.redo d) C U) ∨ c.redo d = d := by
  by_cases hdel : ∃ old, delete old ∈ C ++ U
  · exact .inl ⟨.inl hdel, .inl hdel⟩
  · simp only [Safe, hdel, false_or]
    rcases hcs : C ++ U with _ | ⟨a, cs⟩
    · rw [hcs] at hc
      cases hc
    · rw [hcs] at h hc hdel
      cases a with
      | delete old => exact absurd ⟨old, List.mem_cons_self⟩ hdel
      | insert v =>
        cases cs with
        | nil =>
          obtain rfl := List.mem_singleton.mp hc
          cases d with
          | none => exact .inl ⟨.inr (.inl rfl), .inr (.inr rfl)⟩
          | some x => exact .inr rfl
        | cons c' cs => exact .inl ⟨trivial, trivial⟩
      | update old new =>
        obtain rfl : s = some old := h.1
        obtain ⟨old', new', rfl⟩ := (updates_of_some h fun o ho => hdel ⟨o, ho⟩).1 c hc
        cases d with
        | none => exact .inr rfl
        | some x => exact .inl ⟨Option.some_ne_none x, Option.some_ne_none new'⟩

/-- An undo likewise. -/
theorem Safe.undo {s d : Option V} {C U : List (Change V)} (h : ValidTrace s (C ++ U)) {c : Change V} (hc : c ∈ U) :
    (Safe s d C U ∧ Safe s (c.undo d) C U) ∨ c.undo d = d := by
  by_cases hdel : ∃ old, delete old ∈ C ++ U
  · exact .inl ⟨.inl hdel, .inl hdel⟩
  · have hmem : c ∈ C ++ U := List.mem_append_right _ hc
    simp only [Safe, hdel, false_or]
    rcases hcs : C ++ U with _ | ⟨a, cs⟩
    · rw [hcs] at hmem
      cases hmem
    · rw [hcs] at h hmem hdel
      cases a with
      | delete old => exact absurd ⟨old, List.mem_cons_self⟩ hdel
      | insert v =>
        cases cs with
        | nil => exact .inl ⟨.inl (List.ne_nil_of_mem hc), .inl (List.ne_nil_of_mem hc)⟩
        | cons c' cs => exact .inl ⟨trivial, trivial⟩
      | update old new =>
        obtain rfl : s = some old := h.1
        obtain ⟨old', new', rfl⟩ := (updates_of_some h fun o ho => hdel ⟨o, ho⟩).1 c hmem
        cases d with
        | none => exact .inr rfl
        | some x => exact .inl ⟨Option.some_ne_none x, Option.some_ne_none old'⟩

/-- **Recovery can be begun again** after any of its steps: a cell that a redo has been made in is recovered as before. -/
theorem recovered_redo {s : Option V} {C U : List (Change V)} (h : ValidTrace s (C ++ U)) {c : Change V} (hc : c ∈ C ++ U)
    (d : Option V) : recovered C U (c.redo d) = recovered C U d := by
  rcases Safe.redo (d := d) h hc with ⟨hsafe, hsafe'⟩ | heq
  · exact ((recover_iff h _).mpr hsafe').trans ((recover_iff h _).mpr hsafe).symm
  · rw [heq]

/-- So is a cell that a change has been taken back in. -/
theorem recovered_undo {s : Option V} {C U : List (Change V)} (h : ValidTrace s (C ++ U)) {c : Change V} (hc : c ∈ U)
    (d : Option V) : recovered C U (c.undo d) = recovered C U d := by
  rcases Safe.undo (d := d) h hc with ⟨hsafe, hsafe'⟩ | heq
  · exact ((recover_iff h _).mpr hsafe').trans ((recover_iff h _).mpr hsafe).symm
  · rw [heq]

/-! ### Stores -/

section Stores

variable {K : Type v} [DecidableEq K]

/-- Run through a list of changes of the cells of a store. -/
def replayAt (g : Change V → Option V → Option V) (m : K → Option V) (cs : List (K × Change V)) : K → Option V :=
  cs.foldl (fun m c => Function.update m c.1 (g c.2 (m c.1))) m

theorem replayAt_append (g : Change V → Option V → Option V) (m : K → Option V) (A B : List (K × Change V)) :
    replayAt g m (A ++ B) = replayAt g (replayAt g m A) B :=
  List.foldl_append

theorem replayAt_concat (g : Change V → Option V → Option V) (m : K → Option V) (A : List (K × Change V))
    (k : K) (c : Change V) : replayAt g m (A ++ [(k, c)]) =
      Function.update (replayAt g m A) k (g c (replayAt g m A k)) :=
  replayAt_append g m A [(k, c)]

/-- The changes can be made in a store one after the other. -/
def ValidAt : (K → Option V) → List (K × Change V) → Prop
  | _, [] => True
  | m, (k, c) :: cs => c.Valid (m k) ∧ ValidAt (Function.update m k (c.apply (m k))) cs

theorem validAt_append {A B : List (K × Change V)} : ∀ {m : K → Option V},
    ValidAt m (A ++ B) ↔ ValidAt m A ∧ ValidAt (replayAt apply m A) B := by
  induction A with
  | nil => simp [ValidAt, replayAt]
  | cons c A ih =>
    intro m
    simp only [List.cons_append, ValidAt, ih, and_assoc]
    rfl

/-- The changes of one cell. -/
def changesAt (k : K) (cs : List (K × Change V)) : List (Change V) :=
  cs.filterMap fun c => if c.1 = k then some c.2 else none

theorem changesAt_append (k : K) (A B : List (K × Change V)) :
    changesAt k (A ++ B) = changesAt k A ++ changesAt k B := List.filterMap_append

theorem changesAt_reverse (k : K) (cs : List (K × Change V)) :
    changesAt k cs.reverse = (changesAt k cs).reverse := List.filterMap_reverse

/-- Changes that can be made in a store can be made in each cell. -/
theorem ValidAt.validTrace {cs : List (K × Change V)} (k : K) : ∀ {m : K → Option V}, ValidAt m cs →
    ValidTrace (m k) (changesAt k cs) := by
  induction cs with
  | nil => exact fun _ => trivial
  | cons c cs ih =>
    rintro m ⟨hc, hcs⟩
    have hrest := ih hcs
    by_cases hk : c.1 = k
    · subst hk
      rw [Function.update_self] at hrest
      simp only [changesAt, List.filterMap_cons, if_true]
      exact ⟨hc, hrest⟩
    · rw [Function.update_of_ne (Ne.symm hk)] at hrest
      simp only [changesAt, List.filterMap_cons, if_neg hk]
      exact hrest

/-- A replay over a store is a replay in each cell. -/
theorem replayAt_apply (g : Change V → Option V → Option V) (k : K) (cs : List (K × Change V)) :
    ∀ m : K → Option V, replayAt g m cs k = replay g (m k) (changesAt k cs) := by
  induction cs with
  | nil => exact fun _ => rfl
  | cons c cs ih =>
    intro m
    refine (ih _).trans ?_
    by_cases hk : c.1 = k
    · subst hk
      simp [changesAt]
    · simp [changesAt, hk, Ne.symm hk]

end Stores

end Change

end Rmdb.Lib
