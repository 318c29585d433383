import Rmdb.Lib.SortedPairs

/-!
# Ordered maps

`std::map`: pairs in strictly increasing order of key. The order is part of the type, so
two maps with the same entries are equal, and visiting a map visits it in order of key.
Assigning the entries of a map one after another, in that order, to an empty map gives
the map back (`assignAll_pairs`).
-/

namespace Rmdb.Lib

universe u v

/-- `std::map`. -/
structure OrderedMap (K : Type u) (V : Type v) [LinearOrder K] where
  /-- The entries, in order of key. -/
  pairs : List (K × V)
  /-- The keys increase strictly. -/
  sorted : SortedKeys pairs

namespace OrderedMap

variable {K : Type u} {V : Type v} [LinearOrder K]

theorem ext {m m' : OrderedMap K V} (h : m.pairs = m'.pairs) : m = m' := by
  cases m
  cases m'
  subst h
  rfl

/-- The empty map. -/
def empty : OrderedMap K V := ⟨[], .nil⟩

/-- `find`. -/
def find (m : OrderedMap K V) (k : K) : Option V := lookupKey m.pairs k

/-- The entries after `m[k] = v`. -/
def assignPairs (k : K) (v : V) : List (K × V) → List (K × V)
  | [] => [(k, v)]
  | (a, w) :: l => if k < a then (k, v) :: (a, w) :: l else if k = a then (k, v) :: l else (a, w) :: assignPairs k v l

theorem mem_assignPairs {k : K} {v : V} {e : K × V} : ∀ {l : List (K × V)}, e ∈ assignPairs k v l → e = (k, v) ∨ e ∈ l
  | [], h => by
    rw [assignPairs, List.mem_singleton] at h
    exact .inl h
  | (a, w) :: l, h => by
    rw [assignPairs] at h
    split at h
    · rcases List.mem_cons.mp h with h | h
      · exact .inl h
      · exact .inr h
    · split at h
      · rcases List.mem_cons.mp h with h | h
        · exact .inl h
        · exact .inr (List.mem_cons_of_mem _ h)
      · rcases List.mem_cons.mp h with h | h
        · exact .inr (h ▸ List.mem_cons_self)
        · rcases mem_assignPairs h with h | h
          · exact .inl h
          · exact .inr (List.mem_cons_of_mem _ h)

theorem sorted_assignPairs (k : K) (v : V) : ∀ {l : List (K × V)}, SortedKeys l → SortedKeys (assignPairs k v l)
  | [], _ => SortedKeys.cons_iff.mpr ⟨by simp, .nil⟩
  | (a, w) :: l, h => by
    obtain ⟨ha, hl⟩ := SortedKeys.cons_iff.mp h
    rw [assignPairs]
    split
    next hlt =>
      refine SortedKeys.cons_iff.mpr ⟨?_, h⟩
      intro b hb
      rcases List.mem_cons.mp hb with rfl | hb
      · exact hlt
      · exact hlt.trans (ha b hb)
    next hle =>
      split
      next heq =>
        subst heq
        exact SortedKeys.cons_iff.mpr ⟨ha, hl⟩
      next hne =>
        refine SortedKeys.cons_iff.mpr ⟨?_, sorted_assignPairs k v hl⟩
        intro b hb
        rcases mem_assignPairs hb with rfl | hb
        · exact lt_of_le_of_ne (not_lt.mp hle) (Ne.symm hne)
        · exact ha b hb

/-- A key above all others is put last. -/
theorem assignPairs_of_lt {k : K} (v : V) : ∀ {l : List (K × V)}, (∀ e ∈ l, e.1 < k) → assignPairs k v l = l ++ [(k, v)]
  | [], _ => rfl
  | (a, w) :: l, h => by
    have ha : a < k := h (a, w) List.mem_cons_self
    rw [assignPairs, if_neg ha.asymm, if_neg ha.ne', assignPairs_of_lt v fun e he => h e (List.mem_cons_of_mem _ he)]
    rfl

/-- `m[k] = v`. -/
def assign (m : OrderedMap K V) (k : K) (v : V) : OrderedMap K V := ⟨assignPairs k v m.pairs, sorted_assignPairs k v m.sorted⟩

theorem assign_of_lt {m : OrderedMap K V} {k : K} (v : V) (h : ∀ e ∈ m.pairs, e.1 < k) :
    (m.assign k v).pairs = m.pairs ++ [(k, v)] := assignPairs_of_lt v h

theorem lookupKey_assignPairs (k : K) (v : V) : ∀ l : List (K × V), lookupKey (assignPairs k v l) k = some v
  | [] => by rw [assignPairs, lookupKey_cons, if_pos rfl]
  | (a, w) :: l => by
    rw [assignPairs]
    split
    · rw [lookupKey_cons, if_pos rfl]
    · split
      · rw [lookupKey_cons, if_pos rfl]
      next hne => rw [lookupKey_cons, if_neg (Ne.symm hne), lookupKey_assignPairs k v l]

theorem find_assign (m : OrderedMap K V) (k : K) (v : V) : (m.assign k v).find k = some v := lookupKey_assignPairs k v m.pairs

theorem lookupKey_assignPairs_of_ne {k k' : K} (v : V) (h : k' ≠ k) : ∀ l : List (K × V),
    lookupKey (assignPairs k v l) k' = lookupKey l k'
  | [] => by rw [assignPairs, lookupKey_cons, if_neg h.symm]
  | (a, w) :: l => by
    rw [assignPairs]
    split
    · rw [lookupKey_cons, if_neg h.symm]
    · split
      next heq => rw [lookupKey_cons, if_neg h.symm, lookupKey_cons, if_neg fun ha => h (ha.symm.trans heq.symm)]
      next => rw [lookupKey_cons, lookupKey_cons, lookupKey_assignPairs_of_ne v h l]

theorem find_assign_of_ne (m : OrderedMap K V) {k k' : K} (v : V) (h : k' ≠ k) : (m.assign k v).find k' = m.find k' :=
  lookupKey_assignPairs_of_ne v h m.pairs

theorem assignPairs_lookupKey {k : K} {v : V} : ∀ {l : List (K × V)}, SortedKeys l → lookupKey l k = some v →
    assignPairs k v l = l
  | [], _, h => by cases h
  | (a, w) :: l, hsorted, h => by
    obtain ⟨ha, hl⟩ := SortedKeys.cons_iff.mp hsorted
    rw [lookupKey_cons] at h
    rw [assignPairs]
    by_cases heq : a = k
    · rw [if_pos heq] at h
      cases h
      rw [heq, if_neg (lt_irrefl k), if_pos rfl]
    · rw [if_neg heq] at h
      have hlt : a < k := ha (k, v) (hl.lookupKey_eq_some.mp h)
      rw [if_neg hlt.asymm, if_neg hlt.ne', assignPairs_lookupKey hl h]

/-- Assigning what is there already. -/
theorem assign_find {m : OrderedMap K V} {k : K} {v : V} (h : m.find k = some v) : m.assign k v = m :=
  ext (assignPairs_lookupKey m.sorted h)

theorem mem_pairs_iff {m : OrderedMap K V} {k : K} {v : V} : (k, v) ∈ m.pairs ↔ m.find k = some v :=
  m.sorted.lookupKey_eq_some.symm

/-- `erase`. -/
def erase (m : OrderedMap K V) (k : K) : OrderedMap K V := ⟨m.pairs.filter fun e => e.1 ≠ k, m.sorted.sublist List.filter_sublist⟩

theorem find_erase_self (m : OrderedMap K V) (k : K) : (m.erase k).find k = none :=
  lookupKey_of_ne fun _ he => of_decide_eq_true (List.mem_filter.mp he).2

theorem find_erase_of_ne (m : OrderedMap K V) {k k' : K} (h : k' ≠ k) : (m.erase k).find k' = m.find k' := by
  rcases hfind : m.find k' with _ | v
  · exact lookupKey_of_ne fun e he => lookupKey_eq_none.mp hfind e (List.mem_of_mem_filter he)
  · exact mem_pairs_iff.mp (List.mem_filter.mpr ⟨mem_pairs_iff.mpr hfind, decide_eq_true h⟩)

/-- The entries of a map, assigned one after another. -/
theorem foldl_assign {m : OrderedMap K V} : ∀ {l : List (K × V)}, SortedKeys (m.pairs ++ l) →
    (l.foldl (fun m e => m.assign e.1 e.2) m).pairs = m.pairs ++ l
  | [], _ => (List.append_nil _).symm
  | e :: l, h => by
    obtain ⟨-, -, hlt⟩ := SortedKeys.append_iff.mp h
    have hpairs : (m.assign e.1 e.2).pairs = m.pairs ++ [e] := assign_of_lt e.2 fun a ha => hlt a ha e List.mem_cons_self
    have h' : SortedKeys ((m.assign e.1 e.2).pairs ++ l) := by
      rw [hpairs, List.append_assoc]
      exact h
    rw [List.foldl_cons, foldl_assign h', hpairs, List.append_assoc]
    rfl

/-- **A map is rebuilt** by assigning its entries in order. -/
theorem assignAll_pairs (m : OrderedMap K V) : m.pairs.foldl (fun m e => m.assign e.1 e.2) empty = m :=
  ext (foldl_assign (m := empty) m.sorted)

end OrderedMap

end Rmdb.Lib
