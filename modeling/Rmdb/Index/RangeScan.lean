import Rmdb.Index.WellFormed

/-!
# Range scans

An `IxScan` from `lower_bound(lo)` to `upper_bound(hi)` is to yield the rids of the entries
with `lo <= key <= hi`, in the order of their keys (`ScanExact`). It does so exactly when no
leaf that ends between the two keys is followed by an empty leaf that is not the last one
(`EmptyLeafAhead`): `IxScan::next` steps onto such a leaf at slot `0`, where there is no
entry, and `rid()` throws. `lower_bound` and `upper_bound` pass over empty leaves, and
`delete_entry` leaves them in the chain.
-/

namespace Rmdb.Index

open Lib

variable {K : Type}

namespace IxIndexHandle

section Ordered

variable [LinearOrder K]

/-- The scan from `first` to `last` ends, without an error and without a failed assertion, and yields the rids of the
entries between the two keys, each once, in the order of the keys. -/
def ScanExact (ih : IxIndexHandle K) (lo hi : K) (first last : Iid) : Prop :=
  ∃ es : List (K × Rid), SortedKeys es ∧
    (∀ k r, (k, r) ∈ es ↔ ih.getValue k = some (some r) ∧ lo ≤ k ∧ k ≤ hi) ∧
    ∃ i, (ih.ixScan last).Visits first (es.map (·.2)) i ∧ (ih.ixScan last).isEnd i = true

/-- Some leaf whose last key is between the two keys is followed by an empty leaf that is not the last one. -/
def EmptyLeafAhead (ih : IxIndexHandle K) (lo hi : K) : Prop :=
  ∃ p n e m, ih.NodeAt p n ∧ n.isLeaf = true ∧ p ≠ ih.lastLeaf ∧ n.pairs.getLast? = some e ∧ lo ≤ e.1 ∧ e.1 ≤ hi ∧
    n.nextLeaf ≠ ih.lastLeaf ∧ ih.pages n.nextLeaf = some m ∧ m.pairs = []

variable {ih : IxIndexHandle K} {lv : List (Leaf K)} {lvls : List (List (Inner K))}

theorem Inv.emptyLeafAhead_iff (h : ih.Inv lv lvls) (lo hi : K) : ih.EmptyLeafAhead lo hi ↔ Gap lv lo hi := by
  constructor
  · rintro ⟨p, n, e, m, hn, hleaf, hlast, he, hlo, hhi, hnext, hm, hempty⟩
    refine ⟨e, ?_, hlo, hhi⟩
    obtain ⟨hinner, -⟩ | ⟨-, a, ha, rfl, hpairs⟩ := h.node_cases hn
    · rw [hleaf] at hinner
      cases hinner
    · obtain ⟨A, B, hlv⟩ := List.append_of_mem ha
      cases B with
      | nil => exact absurd ((h.eq_lastLeaf_iff hlv).mpr rfl) hlast
      | cons b B =>
        rw [h.next_eq hlv hn.2] at hnext hm
        obtain ⟨x, hx, -, hb⟩ := (h.leaves b (by rw [hlv]; simp)).node
        obtain rfl : x = m := by simpa [hx] using hm
        refine ⟨A, a, b, B, hlv, hpairs ▸ he, hb ▸ hempty, fun hB => hnext ?_⟩
        exact (h.eq_lastLeaf_iff (A := A ++ [a]) (by rw [hlv]; simp)).mpr hB
  · rintro ⟨e, ⟨A, a, b, B, hlv, he, hempty, hB⟩, hlo, hhi⟩
    obtain ⟨n, hn, hleaf, hpairs⟩ := h.nodeAt_leaf (l := a) (by rw [hlv]; simp)
    obtain ⟨m, hm, -, hb⟩ := (h.leaves b (by rw [hlv]; simp)).node
    have hnext := h.next_eq hlv hn.2
    refine ⟨a.page, n, e, m, hn, hleaf, ?_, hpairs ▸ he, hlo, hhi, ?_, hnext ▸ hm, hb.trans hempty⟩
    · rw [Ne, h.eq_lastLeaf_iff hlv]
      simp
    · rw [hnext, Ne, h.eq_lastLeaf_iff (A := A ++ [a]) (B := B) (by rw [hlv]; simp)]
      exact hB

/-- The entries between two keys are those that `get_value` finds there. -/
theorem Inv.mem_filter_iff (h : ih.Inv lv lvls) (lo hi : K) (k : K) (r : Rid) :
    ((k, r) ∈ (contents lv).filter fun e => lo ≤ e.1 ∧ e.1 ≤ hi) ↔
      ih.getValue k = some (some r) ∧ lo ≤ k ∧ k ≤ hi := by
  rw [List.mem_filter, h.getValue_eq k, Option.some_inj, h.sorted_contents.lookupKey_eq_some]
  simp

/-- What one scan does, in a state with the invariant. -/
theorem Inv.scanExact_iff (h : ih.Inv lv lvls) {lo hi : K} (hle : lo ≤ hi) :
    ∃ first last, ih.lowerBound lo = some first ∧ ih.upperBound hi = some last ∧
      (ih.ScanExact lo hi first last ↔ ¬ ih.EmptyLeafAhead lo hi) := by
  obtain ⟨first, last, hfirst, hlast, hok, herr⟩ := h.scan_cases lo hi
  refine ⟨first, last, hfirst, hlast, ?_⟩
  rw [h.emptyLeafAhead_iff]
  have hcross : ¬ Crossed lv lo hi := by
    rintro ⟨e, -, h1, h2⟩
    exact absurd (h1.trans h2) hle.not_gt
  constructor
  · rintro ⟨es, -, -, i, hv, hend⟩ hgap
    obtain ⟨L, i', hv', -, hend', hread⟩ := herr (Or.inr hgap)
    exact hv.not_error hend hv' hend' hread
  · intro hgap
    obtain ⟨i, hv, hend⟩ := hok hcross hgap
    exact ⟨_, h.sorted_contents.sublist List.filter_sublist, h.mem_filter_iff lo hi, i, hv, hend⟩

end Ordered

end IxIndexHandle

/-- **A range scan is exact**, in every state the index can reach, exactly when it meets no empty leaf on its way. -/
theorem ixScan_exact_iff [LinearOrder K] (order : ℕ) (horder : 2 < order) (ops : List (Op K)) (lo hi : K)
    (hle : lo ≤ hi) :
    ∃ ih first last, runOps (IxIndexHandle.createIndex order) ops = some ih ∧
      ih.lowerBound lo = some first ∧ ih.upperBound hi = some last ∧
      (ih.ScanExact lo hi first last ↔ ¬ ih.EmptyLeafAhead lo hi) := by
  obtain ⟨ih, lv, lvls, hrun, hinv, -⟩ := run_inv ops (IxIndexHandle.createIndex_inv horder lo)
  obtain ⟨first, last, hfirst, hlast, hiff⟩ := hinv.scanExact_iff hle
  exact ⟨ih, first, last, hrun, hfirst, hlast, hiff⟩

theorem IxIndexHandle.ixScan_read (ih : IxIndexHandle K) (last i : Iid) : (ih.ixScan last).read i = ih.getRid i := rfl

/-- Ten insertions that make three leaves, and three deletions that empty the middle one. -/
def emptyMiddleOps : List (Op ℤ) :=
  [.insert 1 ⟨1, 0⟩, .insert 2 ⟨1, 1⟩, .insert 3 ⟨1, 2⟩, .insert 4 ⟨1, 3⟩, .insert 5 ⟨1, 4⟩, .insert 6 ⟨1, 5⟩, .insert 7 ⟨1, 6⟩,
    .insert 8 ⟨1, 7⟩, .insert 9 ⟨1, 8⟩, .insert 10 ⟨1, 9⟩, .delete 4, .delete 5, .delete 6]

/-- The index after these calls. It has the order of an index on a `CHAR(512)`, the least that there is. -/
def emptyMiddle : IxIndexHandle ℤ :=
  (runOps (IxIndexHandle.createIndex 6) emptyMiddleOps).getD (IxIndexHandle.createIndex 6)

theorem runOps_emptyMiddle : runOps (IxIndexHandle.createIndex 6) emptyMiddleOps = some emptyMiddle := by
  obtain ⟨ih, hrun⟩ := Option.isSome_iff_exists.mp
    (show (runOps (IxIndexHandle.createIndex 6) emptyMiddleOps).isSome = true by decide +kernel)
  rw [emptyMiddle, hrun, Option.getD_some]

/-- The scan from `1` to `10` reads the entries of the first leaf and then fails on the emptied one. -/
theorem ixScan_emptyMiddle :
    runOps (IxIndexHandle.createIndex 6) emptyMiddleOps = some emptyMiddle ∧
      emptyMiddle.lowerBound 1 = some ⟨2, 0⟩ ∧ emptyMiddle.upperBound 10 = some ⟨5, 4⟩ ∧
      emptyMiddle.getValue 7 = some (some ⟨1, 6⟩) ∧
      (emptyMiddle.ixScan ⟨5, 4⟩).Visits ⟨2, 0⟩ [⟨1, 0⟩, ⟨1, 1⟩, ⟨1, 2⟩] ⟨3, 0⟩ ∧
      emptyMiddle.getRid ⟨3, 0⟩ = .error .indexEntryNotFound ∧
      ¬ emptyMiddle.ScanExact 1 10 ⟨2, 0⟩ ⟨5, 4⟩ := by
  have hv₂ : (emptyMiddle.ixScan ⟨5, 4⟩).Visits ⟨2, 2⟩ [⟨1, 2⟩] ⟨3, 0⟩ :=
    .cons (by decide) (by decide +kernel) (by decide +kernel) (.nil _)
  have hv₁ : (emptyMiddle.ixScan ⟨5, 4⟩).Visits ⟨2, 1⟩ [⟨1, 1⟩, ⟨1, 2⟩] ⟨3, 0⟩ :=
    .cons (by decide) (by decide +kernel) (by decide +kernel) hv₂
  have hv : (emptyMiddle.ixScan ⟨5, 4⟩).Visits ⟨2, 0⟩ [⟨1, 0⟩, ⟨1, 1⟩, ⟨1, 2⟩] ⟨3, 0⟩ :=
    .cons (by decide) (by decide +kernel) (by decide +kernel) hv₁
  have hread : emptyMiddle.getRid ⟨3, 0⟩ = .error .indexEntryNotFound := by decide +kernel
  refine ⟨runOps_emptyMiddle, by decide +kernel, by decide +kernel, by decide +kernel, hv, hread, ?_⟩
  rintro ⟨es, -, -, i, hv', hend⟩
  have hnot : (emptyMiddle.ixScan ⟨5, 4⟩).isEnd ⟨3, 0⟩ = false := by decide
  have hrid : (emptyMiddle.ixScan ⟨5, 4⟩).read ⟨3, 0⟩ = .error .indexEntryNotFound := (emptyMiddle.ixScan_read _ _).trans hread
  exact hv'.not_error hend hv hnot hrid

/-- The theorem at an index with one key. -/
theorem ixScan_exact_one :
    ∃ ih first last, runOps (IxIndexHandle.createIndex 6) [Op.insert (1 : ℤ) ⟨1, 0⟩] = some ih ∧
      ih.lowerBound 1 = some first ∧ ih.upperBound 6 = some last ∧
      (ih.ScanExact 1 6 first last ↔ ¬ ih.EmptyLeafAhead 1 6) :=
  ixScan_exact_iff 6 (by decide) [Op.insert (1 : ℤ) ⟨1, 0⟩] 1 6 (by decide)

end Rmdb.Index
