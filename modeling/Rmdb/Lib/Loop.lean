import Mathlib.Data.List.Basic

/-!
# Loops that an exception ends

A loop over a list whose body changes a state and may throw. The state that an exception
leaves behind is kept: it is what the body had made of it by then. `forEach_error` finds
the element at which a loop was ended; `forEach_inv` and `forEach_ok_inv` are the rules for
invariants over the elements done so far. Where a body that fails leaves no state, the loop
is `foldlM`, and `foldlM_all` the rule for what the body makes true of each element.
-/

namespace Rmdb.Lib

universe u v w

variable {σ : Type u} {ε : Type v} {α : Type w} {body : α → σ → σ × Option ε}

/-- Run the body on one element after the other, until it throws. -/
def forEach (body : α → σ → σ × Option ε) : List α → σ → σ × Option ε
  | [], s => (s, none)
  | a :: as, s =>
    match body a s with
    | (s, some e) => (s, some e)
    | (s, none) => forEach body as s

theorem forEach_cons_ok {a : α} {as : List α} {s s' : σ} (h : body a s = (s', none)) :
    forEach body (a :: as) s = forEach body as s' := by
  simp only [forEach, h]

theorem forEach_cons_error {a : α} {as : List α} {s s' : σ} {e : ε} (h : body a s = (s', some e)) :
    forEach body (a :: as) s = (s', some e) := by
  simp only [forEach, h]

theorem forEach_append_ok : ∀ {as bs : List α} {s s' : σ}, forEach body as s = (s', none) →
    forEach body (as ++ bs) s = forEach body bs s'
  | [], _, _, _, h => by
    cases h
    rfl
  | a :: as, bs, s, s', h => by
    rcases ha : body a s with ⟨s₁, _ | e⟩
    · rw [forEach_cons_ok ha] at h
      rw [List.cons_append, forEach_cons_ok ha]
      exact forEach_append_ok h
    · rw [forEach_cons_error ha] at h
      cases h

theorem forEach_inv_from {P : List α → σ → Prop} :
    ∀ {as done : List α} {s : σ}, P done s →
      (∀ A a s, (∃ B, done ++ as = A ++ a :: B) → P A s → ∃ s', body a s = (s', none) ∧ P (A ++ [a]) s') →
      ∃ s', forEach body as s = (s', none) ∧ P (done ++ as) s'
  | [], done, s, h, _ => ⟨s, rfl, by rwa [List.append_nil]⟩
  | a :: as, done, s, h, hbody => by
    obtain ⟨s₁, hrun, h₁⟩ := hbody done a s ⟨as, rfl⟩ h
    rw [forEach_cons_ok hrun]
    have hcat : done ++ a :: as = done ++ [a] ++ as := by simp
    rw [hcat] at hbody ⊢
    exact forEach_inv_from h₁ hbody

/-- The body never throws: what it keeps of every list of elements done holds at the end. -/
theorem forEach_inv {P : List α → σ → Prop} {as : List α} {s : σ} (h : P [] s)
    (hbody : ∀ A a s, (∃ B, as = A ++ a :: B) → P A s → ∃ s', body a s = (s', none) ∧ P (A ++ [a]) s') :
    ∃ s', forEach body as s = (s', none) ∧ P as s' :=
  forEach_inv_from (P := P) h hbody

/-- The loop has not been ended: what the body keeps when it does not throw holds at the end. -/
theorem forEach_ok_inv {P : σ → Prop} : ∀ {as : List α} {s s' : σ}, forEach body as s = (s', none) → P s →
    (∀ a ∈ as, ∀ s s', P s → body a s = (s', none) → P s') → P s'
  | [], s, s', hrun, h, _ => by
    cases hrun
    exact h
  | a :: as, s, s', hrun, h, hbody => by
    rcases ha : body a s with ⟨s₁, _ | e⟩
    · rw [forEach_cons_ok ha] at hrun
      exact forEach_ok_inv hrun (hbody a List.mem_cons_self s s₁ h ha)
        fun b hb => hbody b (List.mem_cons_of_mem _ hb)
    · rw [forEach_cons_error ha] at hrun
      cases hrun

/-- What the body keeps, whether it throws or not, holds at the end. -/
theorem forEach_keeps {P : σ → Prop} {as : List α} (hbody : ∀ a ∈ as, ∀ s, P s → P (body a s).1) :
    ∀ {s : σ}, P s → P (forEach body as s).1 := by
  induction as with
  | nil => exact fun h => h
  | cons a as ih =>
    intro s h
    have ha := hbody a List.mem_cons_self s h
    rw [forEach]
    split
    next s₁ e hrun => rwa [hrun] at ha
    next s₁ hrun =>
      rw [hrun] at ha
      exact ih (fun b hb => hbody b (List.mem_cons_of_mem _ hb)) ha

/-- Where a loop has been ended. -/
theorem forEach_error : ∀ {as : List α} {s s' : σ} {e : ε}, forEach body as s = (s', some e) →
    ∃ A a B s₁, as = A ++ a :: B ∧ forEach body A s = (s₁, none) ∧ body a s₁ = (s', some e)
  | [], s, s', e, h => by cases h
  | a :: as, s, s', e, h => by
    rcases ha : body a s with ⟨s₁, _ | e₁⟩
    · rw [forEach_cons_ok ha] at h
      obtain ⟨A, b, B, s₂, rfl, hA, hb⟩ := forEach_error h
      exact ⟨a :: A, b, B, s₂, rfl, by rw [forEach_cons_ok ha, hA], hb⟩
    · rw [forEach_cons_error ha] at h
      exact ⟨[], a, as, s, rfl, rfl, ha.trans h⟩

/-- The body makes `Q` true of its element, and leaves it true of every element that is not related to it: at the end it
is true of all. -/
theorem foldlM_all {step : σ → α → Option σ} {I : σ → Prop} {Q : α → σ → Prop} {R : α → α → Prop} :
    ∀ {as : List α} {s : σ}, (∀ a ∈ as, ∀ s, I s → ∃ s', step s a = some s' ∧ I s' ∧ Q a s' ∧ ∀ b, R b a → Q b s → Q b s') →
      as.Pairwise R → I s →
      ∃ s', as.foldlM step s = some s' ∧ I s' ∧ (∀ a ∈ as, Q a s') ∧ ∀ b, (∀ a ∈ as, R b a) → Q b s → Q b s'
  | [], s, _, _, h => ⟨s, rfl, h, nofun, fun _ _ hb => hb⟩
  | a :: as, s, hstep, hpair, h => by
    obtain ⟨hhead, htail⟩ := List.pairwise_cons.mp hpair
    obtain ⟨s₁, hrun₁, h₁, hQ, hkeep⟩ := hstep a List.mem_cons_self s h
    obtain ⟨s', hrun, h', hall, hkeep'⟩ := foldlM_all (fun b hb => hstep b (List.mem_cons_of_mem _ hb)) htail h₁
    refine ⟨s', ?_, h', ?_, ?_⟩
    · rw [List.foldlM_cons, hrun₁]
      exact hrun
    · intro b hb
      rcases List.mem_cons.mp hb with rfl | hb
      · exact hkeep' b hhead hQ
      · exact hall b hb
    · intro b hb hQb
      exact hkeep' b (fun c hc => hb c (List.mem_cons_of_mem _ hc)) (hkeep b (hb a List.mem_cons_self) hQb)

end Rmdb.Lib
