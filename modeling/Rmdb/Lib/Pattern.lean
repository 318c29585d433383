import Mathlib.Data.List.Basic

/-!
# Patterns and their longest matches

Regular expressions over classes of letters, as the rules of a scanner are written. A text is
matched letter by letter: `deriv c p` matches what follows `c` in a match of `p`. The
derivatives are kept small by the constructors `mkSeq` and `mkAlt`.

A scanner takes the longest beginning of the text that one of its rules matches, and of the
rules with that length the first (`munch`, `munch_first`).
-/

namespace Rmdb.Lib

/-- A regular expression; a single letter is given by its class. -/
inductive Pattern (α : Type) where
  /-- No text. -/
  | never
  /-- The empty text. -/
  | empty
  /-- A letter of a class. -/
  | one (p : α → Bool)
  /-- One after another. -/
  | seq (p q : Pattern α)
  /-- One or the other. -/
  | alt (p q : Pattern α)
  /-- Any number of times. -/
  | star (p : Pattern α)

namespace Pattern

variable {α β : Type}

/-- The texts of a pattern. -/
inductive Matches : Pattern α → List α → Prop where
  | empty : Matches .empty []
  | one {p : α → Bool} {a : α} : p a = true → Matches (.one p) [a]
  | seq {p q : Pattern α} {as bs : List α} : Matches p as → Matches q bs → Matches (.seq p q) (as ++ bs)
  | altLeft {p q : Pattern α} {as : List α} : Matches p as → Matches (.alt p q) as
  | altRight {p q : Pattern α} {as : List α} : Matches q as → Matches (.alt p q) as
  | starNil {p : Pattern α} : Matches (.star p) []
  | starCons {p : Pattern α} {a : α} {as bs : List α} : Matches p (a :: as) → Matches (.star p) bs →
      Matches (.star p) (a :: as ++ bs)

/-- One or more times. -/
def plus (p : Pattern α) : Pattern α := .seq p (.star p)

/-- At most once. -/
def opt (p : Pattern α) : Pattern α := .alt p .empty

/-- Does the pattern have the empty text? -/
def nullable : Pattern α → Bool
  | .never => false
  | .empty => true
  | .one _ => false
  | .seq p q => p.nullable && q.nullable
  | .alt p q => p.nullable || q.nullable
  | .star _ => true

/-- `seq`, where one side can be read off. -/
def mkSeq : Pattern α → Pattern α → Pattern α
  | .never, _ => .never
  | .empty, q => q
  | p, q => .seq p q

/-- `alt`, where one side has no text. -/
def mkAlt : Pattern α → Pattern α → Pattern α
  | .never, q => q
  | p, .never => p
  | p, q => .alt p q

/-- What follows the letter in the texts of the pattern. -/
def deriv (c : α) : Pattern α → Pattern α
  | .never => .never
  | .empty => .never
  | .one p => if p c then .empty else .never
  | .seq p q => if p.nullable then mkAlt (mkSeq (p.deriv c) q) (q.deriv c) else mkSeq (p.deriv c) q
  | .alt p q => mkAlt (p.deriv c) (q.deriv c)
  | .star p => mkSeq (p.deriv c) (.star p)

/-- The length of the longest beginning of the text that the pattern matches. -/
def longest (p : Pattern α) : List α → Option ℕ
  | [] => if p.nullable then some 0 else none
  | c :: cs =>
    match longest (p.deriv c) cs with
    | some n => some (n + 1)
    | none => if p.nullable then some 0 else none

/-- The rule that a scanner takes at a text, with the number of letters it matches after the first one. -/
def munch : List (Pattern α × β) → α → List α → Option (β × ℕ)
  | [], _, _ => none
  | (p, b) :: rules, c, cs =>
    match longest (p.deriv c) cs, munch rules c cs with
    | none, other => other
    | some n, none => some (b, n)
    | some n, some (b', n') => if n < n' then some (b', n') else some (b, n)

/-! ### Derivatives -/

section Deriv

variable {p q : Pattern α} {c : α} {as : List α}

theorem matches_seq_iff : Matches (.seq p q) as ↔ ∃ bs cs, Matches p bs ∧ Matches q cs ∧ as = bs ++ cs := by
  constructor
  · rintro ⟨⟩
    exact ⟨_, _, ‹_›, ‹_›, rfl⟩
  · rintro ⟨bs, cs, hp, hq, rfl⟩
    exact .seq hp hq

theorem matches_alt_iff : Matches (.alt p q) as ↔ Matches p as ∨ Matches q as := by
  constructor
  · rintro ⟨⟩
    · exact .inl ‹_›
    · exact .inr ‹_›
  · rintro (h | h)
    · exact .altLeft h
    · exact .altRight h

theorem not_matches_never : ¬ Matches .never as := fun h => by cases h

theorem matches_empty_iff : Matches .empty as ↔ as = [] := by
  constructor
  · rintro ⟨⟩
    rfl
  · rintro rfl
    exact .empty

theorem nullable_iff : ∀ {p : Pattern α}, p.nullable = true ↔ Matches p []
  | .never => iff_of_false Bool.false_ne_true not_matches_never
  | .empty => iff_of_true rfl .empty
  | .one p => iff_of_false Bool.false_ne_true fun h => by cases h
  | .seq p q => by
    rw [nullable, Bool.and_eq_true, nullable_iff, nullable_iff, matches_seq_iff]
    constructor
    · exact fun h => ⟨[], [], h.1, h.2, rfl⟩
    · rintro ⟨bs, cs, hp, hq, heq⟩
      obtain ⟨rfl, rfl⟩ := List.append_eq_nil_iff.mp heq.symm
      exact ⟨hp, hq⟩
  | .alt p q => by rw [nullable, Bool.or_eq_true, nullable_iff, nullable_iff, matches_alt_iff]
  | .star p => iff_of_true rfl .starNil

theorem matches_mkSeq_iff : Matches (mkSeq p q) as ↔ Matches (.seq p q) as := by
  unfold mkSeq
  split
  · refine iff_of_false not_matches_never ?_
    intro h
    obtain ⟨_, _, hp, -⟩ := matches_seq_iff.mp h
    exact not_matches_never hp
  · rw [matches_seq_iff]
    constructor
    · exact fun h => ⟨[], as, .empty, h, rfl⟩
    · rintro ⟨bs, cs, hp, hq, rfl⟩
      rwa [matches_empty_iff.mp hp]
  · rfl

theorem matches_mkAlt_iff : Matches (mkAlt p q) as ↔ Matches p as ∨ Matches q as := by
  unfold mkAlt
  split
  · exact (or_iff_right not_matches_never).symm
  · exact (or_iff_left not_matches_never).symm
  · exact matches_alt_iff

theorem matches_star_cons_iff : Matches (.star p) (c :: as) ↔
    ∃ bs cs, Matches p (c :: bs) ∧ Matches (.star p) cs ∧ as = bs ++ cs := by
  constructor
  · intro h
    generalize heq : c :: as = ds at h
    cases h with
    | starNil => cases heq
    | starCons hp hs =>
      obtain ⟨rfl, rfl⟩ := List.cons.inj heq
      exact ⟨_, _, hp, hs, rfl⟩
  · rintro ⟨bs, cs, hp, hs, rfl⟩
    exact .starCons hp hs

/-- **The derivative** has what follows the letter. -/
theorem matches_deriv_iff : ∀ {p : Pattern α} {as : List α}, Matches (p.deriv c) as ↔ Matches p (c :: as)
  | .never, _ => iff_of_false not_matches_never not_matches_never
  | .empty, _ => iff_of_false not_matches_never fun h => by cases h
  | .one p, as => by
    rw [deriv]
    constructor
    · intro h
      split at h
      next hc =>
        rw [matches_empty_iff.mp h]
        exact .one hc
      next => exact absurd h not_matches_never
    · rintro ⟨⟩
      rw [if_pos ‹_›]
      exact .empty
  | .seq p q, as => by
    have hleft : Matches (.seq (p.deriv c) q) as ↔ ∃ bs cs, Matches p (c :: bs) ∧ Matches q cs ∧ as = bs ++ cs := by
      simp only [matches_seq_iff, matches_deriv_iff (p := p)]
    rw [deriv, matches_seq_iff]
    split
    next hnull =>
      rw [matches_mkAlt_iff, matches_mkSeq_iff, hleft, matches_deriv_iff (p := q)]
      constructor
      · rintro (⟨bs, cs, hp, hq, rfl⟩ | hq)
        · exact ⟨c :: bs, cs, hp, hq, rfl⟩
        · exact ⟨[], c :: as, nullable_iff.mp hnull, hq, rfl⟩
      · rintro ⟨_ | ⟨b, bs⟩, cs, hp, hq, heq⟩
        · exact .inr (heq ▸ hq)
        · obtain ⟨rfl, rfl⟩ := List.cons.inj heq
          exact .inl ⟨bs, cs, hp, hq, rfl⟩
    next hnull =>
      rw [matches_mkSeq_iff, hleft]
      constructor
      · rintro ⟨bs, cs, hp, hq, rfl⟩
        exact ⟨c :: bs, cs, hp, hq, rfl⟩
      · rintro ⟨_ | ⟨b, bs⟩, cs, hp, hq, heq⟩
        · exact absurd (nullable_iff.mpr hp) hnull
        · obtain ⟨rfl, rfl⟩ := List.cons.inj heq
          exact ⟨bs, cs, hp, hq, rfl⟩
  | .alt p q, as => by rw [deriv, matches_mkAlt_iff, matches_alt_iff, matches_deriv_iff, matches_deriv_iff]
  | .star p, as => by
    rw [deriv, matches_mkSeq_iff, matches_seq_iff, matches_star_cons_iff]
    simp only [matches_deriv_iff (p := p)]

end Deriv

/-! ### The longest match -/

/-- What `longest` is to find: the longest match, or that there is none. -/
def IsLongest (p : Pattern α) (as : List α) : Option ℕ → Prop
  | some n => n ≤ as.length ∧ Matches p (as.take n) ∧ ∀ m ≤ as.length, Matches p (as.take m) → m ≤ n
  | none => ∀ m ≤ as.length, ¬ Matches p (as.take m)

/-- **The longest match** is found. -/
theorem isLongest_longest : ∀ (p : Pattern α) (as : List α), IsLongest p as (longest p as)
  | p, [] => by
    rw [longest]
    split
    next hnull => exact ⟨Nat.le_refl 0, nullable_iff.mp hnull, fun m hm _ => hm⟩
    next hnull =>
      intro m _ h
      rw [List.take_nil] at h
      exact hnull (nullable_iff.mpr h)
  | p, c :: cs => by
    have ih := isLongest_longest (p.deriv c) cs
    rw [longest]
    split
    next n hn =>
      rw [hn] at ih
      obtain ⟨hle, hmatch, hmax⟩ := ih
      refine ⟨Nat.succ_le_succ hle, matches_deriv_iff.mp hmatch, ?_⟩
      intro m hm h
      cases m with
      | zero => exact Nat.zero_le _
      | succ m => exact Nat.succ_le_succ (hmax m (Nat.le_of_succ_le_succ hm) (matches_deriv_iff.mpr h))
    next hn =>
      rw [hn] at ih
      have hzero : ∀ m ≤ (c :: cs).length, Matches p ((c :: cs).take m) → m = 0 := fun m hm h => by
        cases m with
        | zero => rfl
        | succ m => exact absurd (matches_deriv_iff.mpr h) (ih m (Nat.le_of_succ_le_succ hm))
      split
      next hnull => exact ⟨Nat.zero_le _, nullable_iff.mp hnull, fun m hm h => Nat.le_of_eq (hzero m hm h)⟩
      next hnull =>
        intro m hm h
        rw [hzero m hm h] at h
        exact hnull (nullable_iff.mpr h)

/-- A match that begins with the letter `c` is no longer than the longest. -/
theorem le_longest_deriv {p : Pattern α} {c : α} {cs : List α} {m : ℕ} (hm : m ≤ cs.length)
    (h : Matches p ((c :: cs).take (m + 1))) : ∃ n, longest (p.deriv c) cs = some n ∧ m ≤ n := by
  have hlongest := isLongest_longest (p.deriv c) cs
  rcases hn : longest (p.deriv c) cs with _ | n
  · rw [hn] at hlongest
    exact absurd (matches_deriv_iff.mpr h) (hlongest m hm)
  · rw [hn] at hlongest
    exact ⟨n, rfl, hlongest.2.2 m hm (matches_deriv_iff.mpr h)⟩

/-- No rule matches more than the scanner takes. -/
theorem le_munch {c : α} {cs : List α} : ∀ {rules : List (Pattern α × β)} {rule : Pattern α × β} {m : ℕ}, rule ∈ rules →
    m ≤ cs.length → Matches rule.1 ((c :: cs).take (m + 1)) → ∃ b n, munch rules c cs = some (b, n) ∧ m ≤ n
  | (p, b) :: rules, rule, m, hmem, hm, h => by
    rw [munch]
    rcases List.mem_cons.mp hmem with rfl | hmem
    · obtain ⟨n, hn, hle⟩ := le_longest_deriv hm h
      rw [hn]
      rcases munch rules c cs with _ | ⟨b', n'⟩
      · exact ⟨b, n, rfl, hle⟩
      · simp only
        split
        next hlt => exact ⟨b', n', rfl, by omega⟩
        next => exact ⟨b, n, rfl, hle⟩
    · obtain ⟨b', n', hmunch, hle⟩ := le_munch hmem hm h
      rw [hmunch]
      rcases longest (p.deriv c) cs with _ | n
      · exact ⟨b', n', rfl, hle⟩
      · simp only
        split
        next => exact ⟨b', n', rfl, hle⟩
        next hlt => exact ⟨b, n, rfl, by omega⟩

/-- The action `b` is that of the first rule among those that match most, `n` letters after the first one. -/
def IsFirstLongest (rules : List (Pattern α × β)) (c : α) (cs : List α) (b : β) (n : ℕ) : Prop :=
  ∃ before p after, rules = before ++ (p, b) :: after ∧ Matches p ((c :: cs).take (n + 1)) ∧
    (∀ rule ∈ rules, ∀ m ≤ cs.length, Matches rule.1 ((c :: cs).take (m + 1)) → m ≤ n) ∧
    ∀ rule ∈ before, ∀ m ≤ cs.length, Matches rule.1 ((c :: cs).take (m + 1)) → m < n

theorem IsFirstLongest.mem {rules : List (Pattern α × β)} {c : α} {cs : List α} {b : β} {n : ℕ}
    (h : IsFirstLongest rules c cs b n) : b ∈ rules.map (·.2) := by
  obtain ⟨before, p, after, rfl, -⟩ := h
  simp

/-- **The scanner's choice**: of the rules that match most, the first. -/
theorem munch_first {c : α} {cs : List α} {b : β} {n : ℕ} : ∀ {rules : List (Pattern α × β)},
    munch rules c cs = some (b, n) → IsFirstLongest rules c cs b n
  | (p, b₀) :: rules, h => by
    have hmax : ∀ rule ∈ (p, b₀) :: rules, ∀ m ≤ cs.length, Matches rule.1 ((c :: cs).take (m + 1)) → m ≤ n := by
      intro rule hmem m hm hmatch
      obtain ⟨b', n', hmunch, hle⟩ := le_munch hmem hm hmatch
      rw [h] at hmunch
      cases hmunch
      exact hle
    -- the first rule is taken, or one after it
    have hfirst : longest (p.deriv c) cs = some n → b₀ = b → IsFirstLongest ((p, b₀) :: rules) c cs b n := by
      rintro hn rfl
      have hlongest := isLongest_longest (p.deriv c) cs
      rw [hn] at hlongest
      exact ⟨[], p, rules, rfl, matches_deriv_iff.mp hlongest.2.1, hmax, fun _ h => absurd h List.not_mem_nil⟩
    have hlater : munch rules c cs = some (b, n) → (∀ k, longest (p.deriv c) cs = some k → k < n) →
        IsFirstLongest ((p, b₀) :: rules) c cs b n := by
      intro hmunch hlt
      obtain ⟨before, p', after, heq, hmatch, -, hbefore⟩ := munch_first hmunch
      refine ⟨(p, b₀) :: before, p', after, by rw [heq]; rfl, hmatch, hmax, ?_⟩
      intro rule hmem m hm hrule
      rcases List.mem_cons.mp hmem with rfl | hmem
      · obtain ⟨k, hk, hle⟩ := le_longest_deriv hm hrule
        exact Nat.lt_of_le_of_lt hle (hlt k hk)
      · exact hbefore rule hmem m hm hrule
    rw [munch] at h
    rcases hp : longest (p.deriv c) cs with _ | k
    · rw [hp] at h
      exact hlater h fun k hk => by rw [hp] at hk; cases hk
    · rcases hmunch : munch rules c cs with _ | ⟨b', n'⟩
      · rw [hp, hmunch] at h
        cases h
        exact hfirst hp rfl
      · rw [hp, hmunch] at h
        simp only at h
        split at h
        next hlt =>
          cases h
          exact hlater hmunch fun k' hk' => by rw [hp] at hk'; cases hk'; exact hlt
        next =>
          cases h
          exact hfirst hp rfl

end Pattern

end Rmdb.Lib
