import Rmdb.Common.Defs
import Rmdb.Lib.SortedPairs

/-!
# Nodes of the index tree

`IxNodeHandle`: one page of a B+ tree. A node keeps its pairs of key and `Rid` in
slots `0` to `num_key - 1`; the model keeps them as one list, so `num_key` is its
length. In a leaf the `Rid` is a record's; in an inner node its `page_no` is a child
and its key is the child's separator.

A failed assertion of the source is `none`.

The lemmas say what each operation does to a node whose keys increase strictly: the
binary searches find the split of the list at the key, `insert` puts a new key at its
place, `remove` takes a present one out, and `internal_lookup` routes (`Lib.Route`).
-/

namespace Rmdb.Index

open Lib

/-- `IX_NO_PAGE`. -/
def IX_NO_PAGE : ℤ := -1

/-- `IX_LEAF_HEADER_PAGE`. -/
def IX_LEAF_HEADER_PAGE : ℤ := 1

/-- `IX_INIT_ROOT_PAGE`. -/
def IX_INIT_ROOT_PAGE : ℤ := 2

/-- `IX_INIT_NUM_PAGES`. -/
def IX_INIT_NUM_PAGES : ℤ := 3

/-- A node page: its `IxPageHdr` and its pairs. -/
structure Node (K : Type) where
  /-- `is_leaf`. -/
  isLeaf : Bool
  /-- `parent`. -/
  parent : ℤ
  /-- `prev_leaf`. -/
  prevLeaf : ℤ
  /-- `next_leaf`. -/
  nextLeaf : ℤ
  /-- The keys and rids of the slots. -/
  pairs : List (K × Rid)

namespace Node

variable {K : Type}

/-- `get_size`. -/
def size (n : Node K) : ℕ := n.pairs.length

/-- `get_key`. -/
def keyAt (n : Node K) (i : ℕ) : Option K := n.pairs[i]?.map (·.1)

/-- `value_at`: the page of the `i`th child. -/
def valueAt (n : Node K) (i : ℕ) : Option ℤ := n.pairs[i]?.map (·.2.pageNo)

/-- `is_root_page`. -/
def isRootPage (n : Node K) : Bool := n.parent = IX_NO_PAGE

/-- `insert_pairs`, with the node's capacity. -/
def insertPairs (maxSize : ℕ) (n : Node K) (pos : ℕ) (prs : List (K × Rid)) : Option (Node K) :=
  if pos ≤ n.size ∧ n.size + prs.length ≤ maxSize then
    some { n with pairs := n.pairs.take pos ++ prs ++ n.pairs.drop pos }
  else none

/-- `insert_pair`. -/
def insertPair (maxSize : ℕ) (n : Node K) (pos : ℕ) (key : K) (rid : Rid) : Option (Node K) :=
  n.insertPairs maxSize pos [(key, rid)]

/-- `erase_pair`. -/
def erasePair (n : Node K) (pos : ℕ) : Option (Node K) :=
  if pos < n.size then some { n with pairs := n.pairs.eraseIdx pos } else none

/-- `memcpy(get_key(i), key)`. -/
def setKey (n : Node K) (i : ℕ) (key : K) : Node K :=
  { n with pairs := n.pairs.modify i fun e => (key, e.2) }

/-- `find_child`: the slot of a child; the source asserts that there is one. -/
def findChild (n : Node K) (child : ℤ) : Option ℕ := n.pairs.findIdx? fun e => e.2.pageNo = child

/-- The loop of both binary searches: the first slot whose key fails `below`. -/
def bound (n : Node K) (below : K → Bool) : ℕ :=
  bsearch (fun mid => (n.keyAt mid).any below) n.size 0 n.size

theorem bound_eq {n : Node K} {below : K → Bool} {A B : List (K × Rid)} (hn : n.pairs = A ++ B)
    (hA : ∀ a ∈ A, below a.1 = true) (hB : ∀ b ∈ B, below b.1 = false) : n.bound below = A.length := by
  have hsize : n.size = A.length + B.length := by rw [size, hn, List.length_append]
  refine bsearch_eq (by omega) (by omega) (by omega) ?_
  intro i _ hi
  unfold keyAt
  rw [hn]
  by_cases h : i < A.length
  · rw [List.getElem?_append_left h, List.getElem?_eq_getElem h]
    simp [h, hA _ (List.getElem_mem h)]
  · rw [List.getElem?_append_right (by omega), List.getElem?_eq_getElem (by omega)]
    simp [h, hB _ (List.getElem_mem _)]

section Search

variable [LinearOrder K]

/-- `lower_bound`: the first slot with a key not below the target. -/
def lowerBound (n : Node K) (target : K) : ℕ := n.bound (· < target)

/-- `upper_bound`: the first slot with a key above the target. -/
def upperBound (n : Node K) (target : K) : ℕ := n.bound (· ≤ target)

/-- The test `pos < get_size() && ix_compare(get_key(pos), key) == 0`. -/
def hasKeyAt (n : Node K) (pos : ℕ) (key : K) : Bool := pos < n.size && n.keyAt pos = some key

/-- `leaf_lookup`. -/
def leafLookup (n : Node K) (key : K) : Option Rid :=
  if n.hasKeyAt (n.lowerBound key) key then n.pairs[n.lowerBound key]?.map (·.2) else none

/-- `internal_lookup`. -/
def internalLookup (n : Node K) (key : K) : Option ℤ := n.valueAt (n.upperBound key - 1)

/-- `insert`. -/
def insert (maxSize : ℕ) (n : Node K) (key : K) (value : Rid) : Option (Node K) :=
  if n.hasKeyAt (n.lowerBound key) key then some n else n.insertPair maxSize (n.lowerBound key) key value

/-- `remove`. -/
def remove (n : Node K) (key : K) : Option (Node K) :=
  if n.hasKeyAt (n.lowerBound key) key then n.erasePair (n.lowerBound key) else some n

/-! ### The searches -/

theorem lowerBound_eq {n : Node K} {k : K} {A B : List (K × Rid)} (hn : n.pairs = A ++ B)
    (hA : ∀ a ∈ A, a.1 < k) (hB : ∀ b ∈ B, k ≤ b.1) : n.lowerBound k = A.length :=
  bound_eq hn (fun a ha => by simp [hA a ha]) fun b hb => by simp [hB b hb]

theorem upperBound_eq {n : Node K} {k : K} {A B : List (K × Rid)} (hn : n.pairs = A ++ B)
    (hA : ∀ a ∈ A, a.1 ≤ k) (hB : ∀ b ∈ B, k < b.1) : n.upperBound k = A.length :=
  bound_eq hn (fun a ha => by simp [hA a ha]) fun b hb => by simp [hB b hb]

/-- The split of a node at an absent key, and where the searches land. -/
theorem absent_cases {n : Node K} (hs : SortedKeys n.pairs) {k : K} (h : lookupKey n.pairs k = none) :
    ∃ A B, n.pairs = A ++ B ∧ (∀ a ∈ A, a.1 < k) ∧ (∀ b ∈ B, k < b.1) ∧ n.lowerBound k = A.length ∧
      n.hasKeyAt A.length k = false := by
  obtain ⟨A, B, hn, hA, hB⟩ := hs.split_lt k
  have hne := lookupKey_eq_none.mp h
  have hB' : ∀ b ∈ B, k < b.1 := fun b hb =>
    (hB b hb).lt_of_ne fun he => hne b (by rw [hn]; exact List.mem_append_right _ hb) he.symm
  refine ⟨A, B, hn, hA, hB', lowerBound_eq hn hA hB, ?_⟩
  unfold hasKeyAt keyAt size
  rw [hn]
  cases B with
  | nil => simp
  | cons b B => simp [(hB' b List.mem_cons_self).ne']

/-- The split of a node at a present key, and where the searches land. -/
theorem present_cases {n : Node K} (hs : SortedKeys n.pairs) {k : K} {r : Rid}
    (h : lookupKey n.pairs k = some r) :
    ∃ A B, n.pairs = A ++ (k, r) :: B ∧ (∀ a ∈ A, a.1 < k) ∧ (∀ b ∈ B, k < b.1) ∧
      n.lowerBound k = A.length ∧ n.hasKeyAt A.length k = true := by
  have hmem : (k, r) ∈ n.pairs := by
    unfold lookupKey at h
    obtain ⟨e, he, rfl⟩ := Option.map_eq_some_iff.mp h
    have hk : e.1 = k := by simpa using List.find?_some he
    rw [← hk]
    exact List.mem_of_find?_eq_some he
  obtain ⟨A, B, hn⟩ := List.append_of_mem hmem
  have hs' := hs
  rw [hn, SortedKeys.append_iff, SortedKeys.cons_iff] at hs'
  obtain ⟨-, ⟨hB, -⟩, hA⟩ := hs'
  have hA' : ∀ a ∈ A, a.1 < k := fun a ha => hA a ha (k, r) List.mem_cons_self
  refine ⟨A, B, hn, hA', hB, lowerBound_eq hn hA' ?_, ?_⟩
  · intro b hb
    rcases List.mem_cons.mp hb with rfl | hb
    · exact le_refl _
    · exact (hB b hb).le
  · unfold hasKeyAt keyAt size
    rw [hn]
    simp

/-- `leaf_lookup` finds what the node holds under the key. -/
theorem leafLookup_eq {n : Node K} (hs : SortedKeys n.pairs) (k : K) : n.leafLookup k = lookupKey n.pairs k := by
  unfold leafLookup
  rcases h : lookupKey n.pairs k with _ | r
  · obtain ⟨A, B, -, -, -, hl, hk⟩ := absent_cases hs h
    rw [hl, hk]
    simp
  · obtain ⟨A, B, hn, -, -, hl, hk⟩ := present_cases hs h
    rw [hl, hk, hn]
    simp

/-- `internal_lookup` routes the key. -/
theorem internalLookup_route {n : Node K} (hs : SortedKeys n.pairs) (hne : n.pairs ≠ []) (k : K) :
    ∃ c, n.internalLookup k = some c ∧ Route (n.pairs.map fun e => (e.1, e.2.pageNo)) k c := by
  obtain ⟨A, B, hn, hA, hB⟩ := hs.split_le k
  have hu := upperBound_eq hn hA hB
  have hB' : ∀ b ∈ B.map (fun e => (e.1, e.2.pageNo)), k < b.1 := by
    intro b hb
    obtain ⟨e, he, rfl⟩ := List.mem_map.mp hb
    exact hB e he
  unfold internalLookup valueAt
  rw [hu, hn]
  rcases List.eq_nil_or_concat A with rfl | ⟨A', a, rfl⟩
  · -- every separator is above the key: the first child
    cases B with
    | nil => simp [hn] at hne
    | cons b B =>
      refine ⟨b.2.pageNo, by simp, [], b.1, B.map fun e => (e.1, e.2.pageNo), by simp, by simp, ?_⟩
      exact fun e he => hB' e (List.mem_cons_of_mem _ he)
  · refine ⟨a.2.pageNo, by simp, A'.map fun e => (e.1, e.2.pageNo), a.1, B.map fun e => (e.1, e.2.pageNo),
      by simp, fun _ => hA a (by simp), hB'⟩

/-! ### The updates -/

/-- `insert` of a key the node holds changes nothing. -/
theorem insert_present {n : Node K} (hs : SortedKeys n.pairs) {k : K} {r₀ : Rid}
    (h : lookupKey n.pairs k = some r₀) (m : ℕ) (r : Rid) : n.insert m k r = some n := by
  obtain ⟨A, B, -, -, -, hl, hk⟩ := present_cases hs h
  unfold insert
  rw [hl, hk]
  rfl

/-- `insert` of a new key puts it at its place. -/
theorem insert_absent {n : Node K} (hs : SortedKeys n.pairs) {k : K} (h : lookupKey n.pairs k = none) {m : ℕ}
    (hm : n.size < m) (r : Rid) :
    ∃ A B, n.pairs = A ++ B ∧ (∀ a ∈ A, a.1 < k) ∧ (∀ b ∈ B, k < b.1) ∧
      n.insert m k r = some { n with pairs := A ++ (k, r) :: B } := by
  obtain ⟨A, B, hn, hA, hB, hl, hk⟩ := absent_cases hs h
  refine ⟨A, B, hn, hA, hB, ?_⟩
  unfold insert insertPair insertPairs
  rw [hl, hk, if_neg (by simp), if_pos]
  · simp [hn]
  · refine ⟨by rw [size, hn]; simp, Nat.succ_le_of_lt hm⟩

/-- `remove` of a key the node does not hold changes nothing. -/
theorem remove_absent {n : Node K} (hs : SortedKeys n.pairs) {k : K} (h : lookupKey n.pairs k = none) :
    n.remove k = some n := by
  obtain ⟨A, B, -, -, -, hl, hk⟩ := absent_cases hs h
  unfold remove
  rw [hl, hk]
  rfl

/-- `remove` of a present key takes its pair out, from slot `A.length`. -/
theorem remove_present {n : Node K} (hs : SortedKeys n.pairs) {k : K} {r : Rid}
    (h : lookupKey n.pairs k = some r) :
    ∃ A B, n.pairs = A ++ (k, r) :: B ∧ (∀ a ∈ A, a.1 < k) ∧ (∀ b ∈ B, k < b.1) ∧
      n.lowerBound k = A.length ∧ n.remove k = some { n with pairs := A ++ B } := by
  obtain ⟨A, B, hn, hA, hB, hl, hk⟩ := present_cases hs h
  refine ⟨A, B, hn, hA, hB, hl, ?_⟩
  unfold remove erasePair
  rw [hl, hk, if_pos rfl, if_pos (by rw [size, hn]; simp)]
  simp [hn, List.eraseIdx_append_of_length_le]

end Search

end Node

end Rmdb.Index
