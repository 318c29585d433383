import Mathlib.Data.List.Basic

/-!
# Loops as rounds

A loop given by what one round does: it ends the loop, it fails, or it goes on with another
state. `Runs next s l t` says that the loop from `s` goes on from the states `l`, in order,
and comes to `t`, where it does not go on any more. There is at most one such run
(`Runs.unique`), and there is one if every round that goes on lowers a measure
(`Runs.exists_of_lt`). Two loops that go on from corresponding states come to
corresponding ones (`Runs.final_eq`).

`rounds` computes a loop, in as many rounds as it is given. `rounds_total` is the rule for
loops that always end: an invariant, and a measure that every round lowers.
-/

namespace Rmdb.Lib

universe u v w

variable {σ : Type u} {τ : Type w} {ε : Type v} {next : σ → Except ε (Option σ)} {next' : τ → Except ε (Option τ)}

/-- The loop goes on from the states of the list and stands at the last state then. -/
inductive Runs (next : σ → Except ε (Option σ)) : σ → List σ → σ → Prop where
  /-- The round ends the loop, or fails. -/
  | done {s : σ} : (∀ s', next s ≠ .ok (some s')) → Runs next s [] s
  /-- The round goes on. -/
  | go {s s' t : σ} {l : List σ} : next s = .ok (some s') → Runs next s' l t → Runs next s (s :: l) t

/-- The loop, in at most so many rounds. -/
def rounds (next : σ → Except ε (Option σ)) : ℕ → σ → Option (Except ε σ)
  | 0, _ => none
  | n + 1, s =>
    match next s with
    | .ok (some s') => rounds next n s'
    | .ok none => some (.ok s)
    | .error e => some (.error e)

/-- **Total correctness**: from a state of the invariant the loop goes on as long as `C` holds, keeping the invariant and
lowering the measure, and ends otherwise. Then enough rounds end it. -/
theorem rounds_total {I C : σ → Prop} (μ : σ → ℕ)
    (hgo : ∀ s, I s → C s → ∃ s', next s = .ok (some s') ∧ I s' ∧ μ s' < μ s) (hend : ∀ s, ¬ C s → next s = .ok none)
    {s : σ} (hs : I s) : ∃ t, I t ∧ ¬ C t ∧ ∃ k, ∀ n ≥ k, rounds next n s = some (.ok t) := by
  induction hμ : μ s using Nat.strongRecOn generalizing s with
  | ind m ih =>
    by_cases hC : C s
    · obtain ⟨s', hnext, hs', hlt⟩ := hgo s hs hC
      obtain ⟨t, ht, hnot, k, hrun⟩ := ih (μ s') (hμ ▸ hlt) hs' rfl
      refine ⟨t, ht, hnot, k + 1, ?_⟩
      rintro (_ | n) hn
      · cases hn
      · rw [rounds, hnext]
        exact hrun n (Nat.le_of_succ_le_succ hn)
    · refine ⟨s, hs, hC, 1, ?_⟩
      rintro (_ | n) hn
      · cases hn
      · rw [rounds, hend s hC]

namespace Runs

variable {s t : σ} {l : List σ}

theorem unique {l' : List σ} {t' : σ} (h : Runs next s l t) (h' : Runs next s l' t') : l = l' ∧ t = t' := by
  induction h generalizing l' with
  | done hs =>
    cases h' with
    | done => exact ⟨rfl, rfl⟩
    | go hs' => exact absurd hs' (hs _)
  | go hs _ ih =>
    cases h' with
    | done hs' => exact absurd hs (hs' _)
    | go hs' h' =>
      cases hs.symm.trans hs'
      obtain ⟨rfl, rfl⟩ := ih h'
      exact ⟨rfl, rfl⟩

theorem not_go (h : Runs next s l t) (t' : σ) : next t ≠ .ok (some t') := by
  induction h with
  | done hs => exact hs t'
  | go _ _ ih => exact ih

/-- **Termination**: rounds that go on keep an invariant and lower a measure. -/
theorem exists_of_lt {I : σ → Prop} (μ : σ → ℕ) (hstep : ∀ s s', I s → next s = .ok (some s') → I s' ∧ μ s' < μ s) :
    ∀ (n : ℕ) {s : σ}, I s → μ s < n → ∃ l t, Runs next s l t
  | 0, _, _, hn => absurd hn (Nat.not_lt_zero _)
  | n + 1, s, hs, hn => by
    by_cases hgo : ∃ s', next s = .ok (some s')
    · obtain ⟨s', hnext⟩ := hgo
      obtain ⟨hs', hlt⟩ := hstep s s' hs hnext
      obtain ⟨l, t, h⟩ := exists_of_lt μ hstep n hs' (by omega)
      exact ⟨s :: l, t, .go hnext h⟩
    · exact ⟨[], s, .done fun s' hs' => hgo ⟨s', hs'⟩⟩

/-- Rounds that keep an invariant and lower a measure go on at most so often. -/
theorem length_le {I : σ → Prop} {μ : σ → ℕ} (hstep : ∀ s s', I s → next s = .ok (some s') → I s' ∧ μ s' < μ s)
    (h : Runs next s l t) (hs : I s) : l.length ≤ μ s := by
  induction h with
  | done => exact Nat.zero_le _
  | go hnext _ ih =>
    obtain ⟨hs', hlt⟩ := hstep _ _ hs hnext
    exact Nat.lt_of_le_of_lt (ih hs') hlt

/-- An invariant holds wherever the loop comes. -/
theorem inv {I : σ → Prop} (hstep : ∀ s s', I s → next s = .ok (some s') → I s') (h : Runs next s l t) (hs : I s) :
    (∀ x ∈ l, I x) ∧ I t := by
  induction h with
  | done => exact ⟨by simp, hs⟩
  | go hnext _ ih =>
    obtain ⟨hl, ht⟩ := ih (hstep _ _ hs hnext)
    exact ⟨List.forall_mem_cons.mpr ⟨hs, hl⟩, ht⟩

/-- The loop starts at the first of its states. -/
theorem start_mem (h : Runs next s l t) : s ∈ l ∨ s = t := by
  cases h with
  | done => exact .inr rfl
  | go => exact .inl List.mem_cons_self

/-- From each of its states the loop goes on to one of its states. -/
theorem next_mem (h : Runs next s l t) : ∀ x ∈ l, ∃ x', next x = .ok (some x') ∧ (x' ∈ l ∨ x' = t) := by
  induction h with
  | done => simp
  | go hnext h ih =>
    refine List.forall_mem_cons.mpr ⟨⟨_, hnext, h.start_mem.imp (List.mem_cons_of_mem _) id⟩, ?_⟩
    intro x hx
    obtain ⟨x', hx', hmem⟩ := ih x hx
    exact ⟨x', hx', hmem.imp (List.mem_cons_of_mem _) id⟩

/-- Two loops that go on from corresponding states come to corresponding states. -/
theorem final_eq {I : σ → Prop} {f : σ → τ}
    (hgo : ∀ s s' r, I s → next s = .ok (some s') → next' (f s) = .ok (some r) → I s' ∧ f s' = r) (h : Runs next s l t)
    (hs : I s) {l' : List τ} {t' : τ} (h' : Runs next' (f s) l' t') (hl : l.map f = l') : I t ∧ f t = t' := by
  induction h generalizing l' with
  | done =>
    cases h' with
    | done => exact ⟨hs, rfl⟩
    | go => cases hl
  | @go s s' t l hnext _ ih =>
    generalize hr : f s = r at h'
    cases h' with
    | done => cases hl
    | go hnext' h' =>
      subst hr
      obtain ⟨hs', rfl⟩ := hgo _ _ _ hs hnext hnext'
      exact ih hs' h' (List.cons.inj hl).2

end Runs

end Rmdb.Lib
