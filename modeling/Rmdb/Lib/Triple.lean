import Mathlib.Logic.Relation

/-!
# Pre- and postconditions of programs that throw

A program on a state that returns or throws, in either case in some state: `EStateM`. `Triple`
gives it a precondition and two postconditions, one for each way to end, and the rules follow
the way programs are put together.
-/

namespace Rmdb.Lib

variable {ε σ α β : Type} {P P' : σ → Prop} {Q Q' : α → σ → Prop} {E E' : ε → σ → Prop}

/-- How a program has ended: `Q` of what it has returned, or `E` of what it has thrown. -/
def EndsIn (Q : α → σ → Prop) (E : ε → σ → Prop) : EStateM.Result ε σ α → Prop
  | .ok a s => Q a s
  | .error e s => E e s

/-- From a state with `P` the program returns `a` in a state with `Q a`, or throws `e` in a state with `E e`. -/
def Triple (P : σ → Prop) (x : EStateM ε σ α) (Q : α → σ → Prop) (E : ε → σ → Prop) : Prop := ∀ s, P s → EndsIn Q E (x s)

namespace Triple

theorem pure {a : α} (h : ∀ s, P s → Q a s) : Triple P (Pure.pure a : EStateM ε σ α) Q E := fun s hs => h s hs

theorem throw {e : ε} (h : ∀ s, P s → E e s) : Triple P (throw e : EStateM ε σ α) Q E := fun s hs => h s hs

/-- One program after another. -/
theorem bind {R : α → σ → Prop} {Q : β → σ → Prop} {x : EStateM ε σ α} {f : α → EStateM ε σ β}
    (hx : Triple P x R E) (hf : ∀ a, Triple (R a) (f a) Q E) : Triple P (x >>= f) Q E := by
  intro s hs
  have h := hx s hs
  change EndsIn Q E (EStateM.bind x f s)
  unfold EStateM.bind
  rcases hx : x s with ⟨a, s'⟩ | ⟨e, s'⟩
  · rw [hx] at h
    exact hf a s' h
  · rw [hx] at h
    exact h

/-- The state is read. -/
theorem get_bind {f : σ → EStateM ε σ β} {Q : β → σ → Prop} (hf : ∀ s, P s → Triple (· = s) (f s) Q E) :
    Triple P (get >>= f) Q E := fun s hs => hf s hs s rfl

/-- The state is changed. -/
theorem modify {f : σ → σ} {Q : PUnit → σ → Prop} (h : ∀ s, P s → Q ⟨⟩ (f s)) :
    Triple P (modify f : EStateM ε σ PUnit) Q E := fun s hs => h s hs

/-- A stronger precondition, weaker postconditions. -/
theorem conseq {x : EStateM ε σ α} (h : Triple P x Q E) (hP : ∀ s, P' s → P s) (hQ : ∀ a s, Q a s → Q' a s)
    (hE : ∀ e s, E e s → E' e s) : Triple P' x Q' E' := by
  intro s hs
  have h := h s (hP s hs)
  rcases hx : x s with ⟨a, s'⟩ | ⟨e, s'⟩
  · rw [hx] at h
    exact hQ a s' h
  · rw [hx] at h
    exact hE e s' h

/-- `try .. catch`: the state is kept as it was thrown in. -/
theorem tryCatch {x : EStateM ε σ α} {f : ε → EStateM ε σ α} {R : ε → σ → Prop} (hx : Triple P x Q R)
    (hf : ∀ e, Triple (R e) (f e) Q E) : Triple P (tryCatch x f) Q E := by
  intro s hs
  have h := hx s hs
  change EndsIn Q E (EStateM.tryCatch x f s)
  unfold EStateM.tryCatch
  rcases hx : x s with ⟨a, s'⟩ | ⟨e, s'⟩
  · rw [hx] at h
    exact h
  · rw [hx] at h
    exact hf e s' h

end Triple

/-! ### Single runs -/

section Runs

variable {x : EStateM ε σ α} {f : α → EStateM ε σ β} {s s' : σ}

/-- A program that has returned, and what follows it. -/
theorem bind_of_ok {a : α} (h : x s = .ok a s') : (x >>= f) s = f a s' := by
  change EStateM.bind x f s = f a s'
  rw [EStateM.bind, h]

/-- A program that has thrown. -/
theorem bind_of_error {e : ε} (h : x s = .error e s') : (x >>= f) s = .error e s' := by
  change EStateM.bind x f s = .error e s'
  rw [EStateM.bind, h]

/-- What follows depends on how the program has ended only. -/
theorem bind_of_eq {x' : EStateM ε σ α} (h : x s = x' s) : (x >>= f) s = (x' >>= f) s := by
  change EStateM.bind x f s = EStateM.bind x' f s
  rw [EStateM.bind, EStateM.bind, h]

/-- Two programs that have returned, one after the other. -/
theorem of_bind_ok {b : β} (h : (x >>= f) s = .ok b s') : ∃ a s₁, x s = .ok a s₁ ∧ f a s₁ = .ok b s' := by
  rcases hx : x s with ⟨a, s₁⟩ | ⟨e, s₁⟩
  · rw [bind_of_ok hx] at h
    exact ⟨a, s₁, rfl, h⟩
  · rw [bind_of_error hx] at h
    cases h

variable {y : EStateM ε σ α} {g : ε → EStateM ε σ α}

theorem tryCatch_of_ok {a : α} (h : y s = .ok a s') : tryCatch y g s = .ok a s' := by
  change EStateM.tryCatch y g s = .ok a s'
  unfold EStateM.tryCatch
  rw [h]

/-- A program that has thrown, and what catches it. -/
theorem tryCatch_of_error {e : ε} (h : y s = .error e s') : tryCatch y g s = g e s' := by
  change EStateM.tryCatch y g s = g e s'
  unfold EStateM.tryCatch
  rw [h]
  rfl

end Runs

/-! ### Programs that return -/

/-- From this state the program returns, and then `Q`. -/
def Returns (x : EStateM ε σ α) (s : σ) (Q : α → σ → Prop) : Prop := ∃ a s', x s = .ok a s' ∧ Q a s'

namespace Returns

variable {s : σ}

theorem pure {a : α} (h : Q a s) : Returns (Pure.pure a : EStateM ε σ α) s Q := ⟨a, s, rfl, h⟩

theorem bind {R : α → σ → Prop} {Q : β → σ → Prop} {x : EStateM ε σ α} {f : α → EStateM ε σ β} (hx : Returns x s R)
    (hf : ∀ a s', R a s' → Returns (f a) s' Q) : Returns (x >>= f) s Q := by
  obtain ⟨a, s₁, hrun, hR⟩ := hx
  obtain ⟨b, s₂, hrun', hQ⟩ := hf a s₁ hR
  exact ⟨b, s₂, (bind_of_ok hrun).trans hrun', hQ⟩

theorem get_bind {f : σ → EStateM ε σ β} {Q : β → σ → Prop} (h : Returns (f s) s Q) :
    Returns ((get : EStateM ε σ σ) >>= f) s Q := h

theorem set_bind {s' : σ} {f : PUnit → EStateM ε σ β} {Q : β → σ → Prop} (h : Returns (f ⟨⟩) s' Q) :
    Returns ((set s' : EStateM ε σ PUnit) >>= f) s Q := h

theorem modify {f : σ → σ} {Q : PUnit → σ → Prop} (h : Q ⟨⟩ (f s)) : Returns (modify f : EStateM ε σ PUnit) s Q := ⟨_, _, rfl, h⟩

theorem mono {x : EStateM ε σ α} (h : Returns x s Q) (hQ : ∀ a s', Q a s' → Q' a s') : Returns x s Q' := by
  obtain ⟨a, s', hrun, hq⟩ := h
  exact ⟨a, s', hrun, hQ a s' hq⟩

end Returns

/-! ### Programs that move in steps -/

/-- However the program ends, it has come there in steps of `r`. -/
def Along (r : σ → σ → Prop) (x : EStateM ε σ α) : Prop :=
  ∀ s, EndsIn (fun _ => Relation.ReflTransGen r s) (fun _ => Relation.ReflTransGen r s) (x s)

namespace Along

variable {r : σ → σ → Prop}

theorem pure (a : α) : Along r (Pure.pure a : EStateM ε σ α) := fun _ => .refl

theorem throw (e : ε) : Along r (throw e : EStateM ε σ α) := fun _ => .refl

theorem bind {x : EStateM ε σ α} {f : α → EStateM ε σ β} (hx : Along r x) (hf : ∀ a, Along r (f a)) : Along r (x >>= f) := by
  intro s
  have h := hx s
  rcases hout : x s with ⟨a, s'⟩ | ⟨e, s'⟩
  · rw [hout] at h
    have hrest := hf a s'
    rw [bind_of_ok hout]
    rcases hy : f a s' with ⟨b, s''⟩ | ⟨e, s''⟩ <;> rw [hy] at hrest <;> exact Relation.ReflTransGen.trans h hrest
  · rw [hout] at h
    rw [bind_of_error hout]
    exact h

theorem get_bind {f : σ → EStateM ε σ β} (hf : ∀ s, Along r (f s)) : Along r (get >>= f) := fun s => hf s s

/-- Where the program ends, in either way. -/
theorem holds {P : σ → Prop} {x : EStateM ε σ α} (hx : Along r x) (hP : ∀ s s', r s s' → P s → P s') {s : σ} (hs : P s) :
    EndsIn (fun _ => P) (fun _ => P) (x s) := by
  have hrun : ∀ {s'}, Relation.ReflTransGen r s s' → P s' := fun h => by
    induction h with
    | refl => exact hs
    | tail _ hstep ih => exact hP _ _ hstep ih
  have h := hx s
  rcases hout : x s with ⟨a, s'⟩ | ⟨e, s'⟩ <;> rw [hout] at h <;> exact hrun h

end Along

end Rmdb.Lib
