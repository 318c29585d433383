import Rmdb.Index.Header
import Rmdb.Index.Key
import Rmdb.Lib.Items

/-!
# The bytes of a node

`IxNodeHandle` on the bytes of its page: `num_key` is in the page header, and behind the
header lie the keys and then the rids, each in an array with room for `get_max_size()` of
them. The operations shift the two arrays by separate `memmove`s. What they do to the list
of pairs that the arrays hold (`pairs`) is what a sorted list of pairs is for: `nodeActs`.
They act on the page as the operations of `Node` act on the pairs of a node
(`toNode_insertPairs`, `toNode_erasePair`, `lowerBound_toNode`).

A `Rid` is eight bytes here. A position is not negative, and a failed assertion is `none`.
-/

namespace Rmdb.Index

open Lib
open Record (InInt intAt setInt intAt_setInt intAt_copyTo length_intBytes)
open Storage (PAGE_SIZE PageData)

/-- What `file_hdr` says of the nodes. -/
structure NodeLayout where
  /-- `col_types_` and `col_lens_`. -/
  cols : List (ColType × ℕ)
  /-- `btree_order_`. -/
  btreeOrder : ℕ
  /-- A node fits into a page. -/
  fits : sizeofIxPageHdr + (btreeOrder + 1) * (colTotLen cols + sizeofRid) ≤ PAGE_SIZE

namespace NodeLayout

/-- `get_max_size`. -/
def maxSize (L : NodeLayout) : ℕ := L.btreeOrder + 1

/-- `col_tot_len_`. -/
def keyLen (L : NodeLayout) : ℕ := colTotLen L.cols

/-- Where the rids begin: after the header and `keys_size_`. -/
def ridsOffset (L : NodeLayout) : ℕ := sizeofIxPageHdr + L.maxSize * L.keyLen

/-- `get_key`: the offset in the page. -/
def keyOffset (L : NodeLayout) (i : ℕ) : ℕ := sizeofIxPageHdr + i * L.keyLen

/-- `get_rid`: the offset in the page. -/
def ridOffset (L : NodeLayout) (i : ℕ) : ℕ := L.ridsOffset + i * sizeofRid

/-- The nodes of an index that `create_index` has made. -/
def create (cols : List (ColType × ℕ)) (h : colTotLen cols ≤ IX_MAX_COL_LEN) : NodeLayout :=
  ⟨cols, btreeOrderOf (colTotLen cols), (btreeOrderOf_fits h).2⟩

theorem fits' (L : NodeLayout) : L.ridsOffset + L.maxSize * sizeofRid ≤ PAGE_SIZE := by
  have h := L.fits
  rw [Nat.mul_add] at h
  unfold ridsOffset maxSize keyLen
  omega

end NodeLayout

/-! ### The operations -/

namespace NodePage

variable (L : NodeLayout)

/-- Where `num_key` is in `IxPageHdr`. -/
def numKeyOffset : ℕ := 8

/-- `get_size`. -/
def getSize (page : PageData) : ℤ := intAt page numKeyOffset

/-- `set_size`. -/
def setSize (page : PageData) (size : ℤ) : PageData := setInt page numKeyOffset size

/-- The bytes at `get_key`. -/
def getKey (page : PageData) (i : ℕ) : Bytes := cellsAt page (L.keyOffset i) L.keyLen

/-- The bytes at `get_rid`. -/
def getRid (page : PageData) (i : ℕ) : Bytes := cellsAt page (L.ridOffset i) sizeofRid

/-- `lower_bound`. -/
def lowerBound (page : PageData) (target : Bytes) : ℕ :=
  bsearch (fun mid => decide (ixCompare L.cols (getKey L page mid) target < 0)) (getSize page).toNat 0 (getSize page).toNat

/-- `upper_bound`. -/
def upperBound (page : PageData) (target : Bytes) : ℕ :=
  bsearch (fun mid => decide (ixCompare L.cols (getKey L page mid) target ≤ 0)) (getSize page).toNat 0 (getSize page).toNat

/-- The two `memmove`s: so many pairs, from one position to another. -/
def shift (page : PageData) (dest src moveNum : ℕ) : PageData :=
  let page := moveTo page (L.keyOffset dest) (L.keyOffset src) (moveNum * L.keyLen)
  moveTo page (L.ridOffset dest) (L.ridOffset src) (moveNum * sizeofRid)

/-- `insert_pairs`. -/
def insertPairs (page : PageData) (pos : ℕ) (key rid : Bytes) (n : ℕ) : Option PageData :=
  if pos ≤ getSize page ∧ getSize page + n ≤ L.maxSize then
    let moveNum := (getSize page - pos).toNat
    let moved := if 0 < moveNum then shift L page (pos + n) pos moveNum else page
    let filled := copyTo moved (L.keyOffset pos) (key.take (n * L.keyLen))
    let filled := copyTo filled (L.ridOffset pos) (rid.take (n * sizeofRid))
    some (setSize filled (getSize page + n))
  else none

/-- The test `pos < get_size() && ix_compare(get_key(pos), key) == 0`. -/
def hasKeyAt (page : PageData) (pos : ℕ) (key : Bytes) : Bool :=
  decide (pos < getSize page) && decide (ixCompare L.cols (getKey L page pos) key = 0)

/-- `insert`: the page after it, and the number of pairs. -/
def insert (page : PageData) (key value : Bytes) : Option (PageData × ℤ) :=
  if hasKeyAt L page (lowerBound L page key) key then some (page, getSize page)
  else (insertPairs L page (lowerBound L page key) key value 1).map fun page => (page, getSize page)

/-- `erase_pair`. -/
def erasePair (page : PageData) (pos : ℕ) : Option PageData :=
  if pos < getSize page then
    let moveNum := (getSize page - pos - 1).toNat
    let moved := if 0 < moveNum then shift L page pos (pos + 1) moveNum else page
    some (setSize moved (getSize page - 1))
  else none

/-- `remove`: the page after it, and the number of pairs. -/
def remove (page : PageData) (key : Bytes) : Option (PageData × ℤ) :=
  if hasKeyAt L page (lowerBound L page key) key then
    (erasePair L page (lowerBound L page key)).map fun page => (page, getSize page)
  else some (page, getSize page)

/-- So many pairs from a position on. -/
def pairsAt (page : PageData) (pos count : ℕ) : List (Bytes × Bytes) :=
  (items page (L.keyOffset pos) L.keyLen count).zip (items page (L.ridOffset pos) sizeofRid count)

/-- The pairs of a node. -/
def pairs (page : PageData) : List (Bytes × Bytes) := pairsAt L page 0 (getSize page).toNat

/-- A byte of `num_key` or of one of the arrays. -/
def Owns (i : ℕ) : Prop :=
  (numKeyOffset ≤ i ∧ i < numKeyOffset + 4) ∨ (sizeofIxPageHdr ≤ i ∧ i < L.ridsOffset + L.maxSize * sizeofRid)

/-- No other byte has changed. -/
def Frame (page page' : PageData) : Prop := ∀ i, ¬ Owns L i → cellAt page' i = cellAt page i

/-! ### Inserting and erasing pairs -/

variable {L} {page : PageData} {k pos n : ℕ}

theorem Frame.refl (page : PageData) : Frame L page page := fun _ _ => rfl

theorem Frame.trans {page page₁ page' : PageData} (h : Frame L page page₁) (h' : Frame L page₁ page') : Frame L page page' :=
  fun i hi => (h' i hi).trans (h i hi)

/-- Bytes that are copied into the arrays. -/
theorem frame_copyTo {offset : ℕ} {src : Bytes} (hlow : sizeofIxPageHdr ≤ offset)
    (hhigh : offset + src.length ≤ L.ridsOffset + L.maxSize * sizeofRid) : Frame L page (copyTo page offset src) := by
  intro i hi
  refine cellAt_copyTo_of_disjoint (hhigh.trans L.fits') ?_
  unfold Owns at hi
  omega

theorem getSize_setSize (page : PageData) {x : ℕ} (hx : x ≤ L.maxSize) : getSize (setSize page x) = x := by
  refine intAt_setInt (by decide) ?_
  have h := L.fits'
  unfold PAGE_SIZE sizeofRid at h
  constructor <;> omega

theorem frame_setSize (page : PageData) (x : ℤ) : Frame L page (setSize page x) := by
  intro i hi
  refine cellAt_copyTo_of_disjoint (by rw [length_intBytes]; decide) ?_
  rw [length_intBytes]
  unfold Owns at hi
  omega

theorem pairsAt_add (page : PageData) (pos a b : ℕ) :
    pairsAt L page pos (a + b) = pairsAt L page pos a ++ pairsAt L page (pos + a) b := by
  have hkey : L.keyOffset pos + a * L.keyLen = L.keyOffset (pos + a) := by
    rw [NodeLayout.keyOffset, NodeLayout.keyOffset, Nat.add_mul, Nat.add_assoc]
  have hrid : L.ridOffset pos + a * sizeofRid = L.ridOffset (pos + a) := by
    rw [NodeLayout.ridOffset, NodeLayout.ridOffset, Nat.add_mul, Nat.add_assoc]
  rw [pairsAt, items_add, items_add, hkey, hrid, List.zip_append (by rw [length_items, length_items])]
  rfl

@[simp] theorem length_pairsAt (page : PageData) (pos count : ℕ) : (pairsAt L page pos count).length = count := by
  rw [pairsAt, List.length_zip, length_items, length_items, Nat.min_self]

/-- A pair is a key and a rid of one slot. -/
theorem pairsAt_getElem? (page : PageData) (pos : ℕ) {count i : ℕ} (hi : i < count) :
    (pairsAt L page pos count)[i]? = some (getKey L page (pos + i), getRid L page (pos + i)) := by
  obtain ⟨c, rfl⟩ := Nat.exists_eq_add_of_lt hi
  rw [Nat.add_assoc, Nat.add_comm c 1, pairsAt_add, pairsAt_add, List.getElem?_append_right (by rw [length_pairsAt]),
    length_pairsAt, Nat.sub_self, pairsAt, items_one, items_one]
  rfl

/-- The arrays do not change with `num_key`. -/
theorem pairsAt_setSize (x : ℤ) (count : ℕ) : pairsAt L (setSize page x) pos count = pairsAt L page pos count := by
  have hitems : ∀ {base len}, sizeofIxPageHdr ≤ base → items (setSize page x) base len count = items page base len count := by
    intro base len h
    refine items_copyTo_of_disjoint (by rw [length_intBytes]; decide) (Or.inl ?_)
    rw [length_intBytes]
    exact le_trans (by decide) h
  have hkey : sizeofIxPageHdr ≤ L.keyOffset pos := Nat.le_add_right ..
  have hrid : sizeofIxPageHdr ≤ L.ridOffset pos := (Nat.le_add_right ..).trans (Nat.le_add_right ..)
  rw [pairsAt, hitems hkey, hitems hrid]
  rfl

/-- Where the arrays are: the keys before the rids, and these in the page. -/
theorem arrays (L : NodeLayout) {pos n : ℕ} (h : pos + n ≤ L.maxSize) :
    L.keyOffset pos + n * L.keyLen ≤ L.ridsOffset ∧ L.ridsOffset ≤ L.ridOffset pos ∧
      L.ridOffset pos + n * sizeofRid ≤ L.ridsOffset + L.maxSize * sizeofRid := by
  have hkeys := Nat.mul_le_mul_right L.keyLen h
  have hrids := Nat.mul_le_mul_right sizeofRid h
  rw [Nat.add_mul] at hkeys hrids
  unfold NodeLayout.keyOffset NodeLayout.ridOffset NodeLayout.ridsOffset
  omega

/-- Pairs are read elsewhere than bytes are written in the two arrays. -/
theorem pairsAt_congr {page' : PageData} {n : ℕ}
    (hkeys : items page' (L.keyOffset pos) L.keyLen n = items page (L.keyOffset pos) L.keyLen n)
    (hrids : items page' (L.ridOffset pos) sizeofRid n = items page (L.ridOffset pos) sizeofRid n) :
    pairsAt L page' pos n = pairsAt L page pos n := by
  rw [pairsAt, hkeys, hrids]
  rfl

/-- **Blocks that are written** into both arrays are the pairs there, and the pairs before and after them stay. -/
theorem write_spec (page : PageData) (pos : ℕ) {key rid : Bytes} {n : ℕ} (h : pos + n ≤ L.maxSize) (hkey : key.length = n * L.keyLen)
    (hrid : rid.length = n * sizeofRid) :
    pairsAt L (copyTo (copyTo page (L.keyOffset pos) key) (L.ridOffset pos) rid) pos n =
        (chunks L.keyLen n key).zip (chunks sizeofRid n rid) ∧
      (∀ p c, p + c ≤ pos ∨ (pos + n ≤ p ∧ p + c ≤ L.maxSize) →
        pairsAt L (copyTo (copyTo page (L.keyOffset pos) key) (L.ridOffset pos) rid) p c = pairsAt L page p c) ∧
      Frame L page (copyTo (copyTo page (L.keyOffset pos) key) (L.ridOffset pos) rid) := by
  obtain ⟨hK, hlow, hR⟩ := arrays L h
  have hfits := L.fits'
  refine ⟨?_, ?_, ?_⟩
  · rw [pairsAt, items_copyTo_of_disjoint (by omega) (Or.inr (by omega)), items_copyTo (by omega) hkey, items_copyTo (by omega) hrid]
  · intro p c hpc
    obtain ⟨hK', hlow', hR'⟩ := arrays L (show p + c ≤ L.maxSize by omega)
    have hsep : (L.keyOffset pos + n * L.keyLen ≤ L.keyOffset p ∨ L.keyOffset p + c * L.keyLen ≤ L.keyOffset pos) ∧
        (L.ridOffset pos + n * sizeofRid ≤ L.ridOffset p ∨ L.ridOffset p + c * sizeofRid ≤ L.ridOffset pos) := by
      unfold NodeLayout.keyOffset NodeLayout.ridOffset
      rcases hpc with hpc | ⟨hpc, -⟩
      · have h₁ := Nat.mul_le_mul_right L.keyLen hpc
        have h₂ := Nat.mul_le_mul_right sizeofRid hpc
        rw [Nat.add_mul] at h₁ h₂
        omega
      · have h₁ := Nat.mul_le_mul_right L.keyLen hpc
        have h₂ := Nat.mul_le_mul_right sizeofRid hpc
        rw [Nat.add_mul] at h₁ h₂
        omega
    refine pairsAt_congr ?_ ?_
    · rw [items_copyTo_of_disjoint (by omega) (Or.inr (by omega)), items_copyTo_of_disjoint (by omega) (by omega)]
    · rw [items_copyTo_of_disjoint (by omega) (by omega), items_copyTo_of_disjoint (by omega) (Or.inl (by omega))]
  · have hkeyOffset : sizeofIxPageHdr ≤ L.keyOffset pos := Nat.le_add_right ..
    have hridOffset : sizeofIxPageHdr ≤ L.ridOffset pos := (Nat.le_add_right ..).trans hlow
    exact (frame_copyTo hkeyOffset (by omega)).trans (frame_copyTo hridOffset (by omega))

/-- **Pairs that are moved** go to their new place in both arrays, and the pairs before and after it stay. -/
theorem shift_spec (page : PageData) (dest src : ℕ) {m : ℕ} (hdest : dest + m ≤ L.maxSize) (hsrc : src + m ≤ L.maxSize) :
    pairsAt L (shift L page dest src m) dest m = pairsAt L page src m ∧
      (∀ p c, p + c ≤ dest ∨ (dest + m ≤ p ∧ p + c ≤ L.maxSize) → pairsAt L (shift L page dest src m) p c = pairsAt L page p c) ∧
      Frame L page (shift L page dest src m) := by
  obtain ⟨hK, hlow, hR⟩ := arrays L hdest
  obtain ⟨hK', hlow', hR'⟩ := arrays L hsrc
  have hfits := L.fits'
  have hrids : cellsAt (moveTo page (L.keyOffset dest) (L.keyOffset src) (m * L.keyLen)) (L.ridOffset src) (m * sizeofRid) =
      cellsAt page (L.ridOffset src) (m * sizeofRid) := cellsAt_moveTo_of_disjoint (by omega) (Or.inl (by omega))
  have heq : shift L page dest src m = copyTo (copyTo page (L.keyOffset dest) (cellsAt page (L.keyOffset src) (m * L.keyLen)))
      (L.ridOffset dest) (cellsAt page (L.ridOffset src) (m * sizeofRid)) := by
    rw [shift, ← hrids]
    rfl
  obtain ⟨hwritten, hother, hframe⟩ := write_spec page dest hdest (length_cellsAt page (L.keyOffset src) (m * L.keyLen))
    (length_cellsAt page (L.ridOffset src) (m * sizeofRid))
  rw [heq]
  refine ⟨?_, hother, hframe⟩
  rw [hwritten, ← items_eq_chunks, ← items_eq_chunks]
  rfl

/-- Where there is nothing to move, moving does nothing. -/
theorem ite_shift (page : PageData) (dest src m : ℕ) :
    (if 0 < m then shift L page dest src m else page) = shift L page dest src m := by
  split
  · rfl
  · obtain rfl : m = 0 := by omega
    rw [shift, Nat.zero_mul, Nat.zero_mul, moveTo_zero, moveTo_zero]

/-- A node with its pairs in two parts. -/
theorem pairs_eq_append {a b : ℕ} (h : getSize page = (a + b : ℕ)) : pairs L page = pairsAt L page 0 a ++ pairsAt L page a b := by
  rw [pairs, h, Int.toNat_natCast, pairsAt_add, Nat.zero_add]

/-- **`insert_pairs`** splices the pairs in. -/
theorem insertPairs_spec {key rid : Bytes} (hk : getSize page = k) (hpos : pos ≤ k) (hn : k + n ≤ L.maxSize)
    (hkey : key.length = n * L.keyLen) (hrid : rid.length = n * sizeofRid) :
    ∃ page', insertPairs L page pos key rid n = some page' ∧ getSize page' = (k + n : ℕ) ∧
      pairs L page' = (pairs L page).take pos ++ (chunks L.keyLen n key).zip (chunks sizeofRid n rid) ++ (pairs L page).drop pos ∧
      Frame L page page' := by
  obtain ⟨m, rfl⟩ := Nat.exists_eq_add_of_le hpos
  have hnum : ((pos + m : ℕ) : ℤ) - pos = m := by omega
  have hrun : insertPairs L page pos key rid n =
      some (setSize (copyTo (copyTo (shift L page (pos + n) pos m) (L.keyOffset pos) key) (L.ridOffset pos) rid) (pos + m + n : ℕ)) := by
    rw [insertPairs, if_pos (by rw [hk]; omega)]
    simp only [hk, hnum, Int.toNat_natCast, ite_shift, List.take_of_length_le hkey.le, List.take_of_length_le hrid.le,
      ← Int.natCast_add]
  obtain ⟨hmoved, hstay, hframe⟩ := shift_spec (L := L) page (pos + n) pos (m := m) (by omega) (by omega)
  obtain ⟨hwritten, hother, hframe'⟩ := write_spec (shift L page (pos + n) pos m) pos (by omega) hkey hrid
  have hsize := getSize_setSize (L := L) (copyTo (copyTo (shift L page (pos + n) pos m) (L.keyOffset pos) key) (L.ridOffset pos) rid)
    (x := pos + m + n) (by omega)
  refine ⟨_, hrun, hsize, ?_, (hframe.trans hframe').trans (frame_setSize _ _)⟩
  rw [pairs_eq_append (a := pos) (b := n + m) (by rw [hsize]; omega), pairsAt_add, pairsAt_setSize, pairsAt_setSize, pairsAt_setSize,
    hother 0 pos (Or.inl (by omega)), hwritten, hother (pos + n) m (Or.inr (by omega)), hmoved, hstay 0 pos (Or.inl (by omega)),
    pairs_eq_append hk, List.take_left' (length_pairsAt ..), List.drop_left' (length_pairsAt ..), List.append_assoc]

/-- **`erase_pair`** drops a pair. -/
theorem erasePair_spec (hk : getSize page = k) (hmax : k ≤ L.maxSize) (hpos : pos < k) :
    ∃ page', erasePair L page pos = some page' ∧ getSize page' = (k - 1 : ℕ) ∧ pairs L page' = (pairs L page).eraseIdx pos ∧
      Frame L page page' := by
  obtain ⟨m, rfl⟩ := Nat.exists_eq_add_of_lt hpos
  have hnum : ((pos + m + 1 : ℕ) : ℤ) - pos - 1 = m := by omega
  have hrun : erasePair L page pos = some (setSize (shift L page pos (pos + 1) m) (pos + m : ℕ)) := by
    rw [erasePair, if_pos (by rw [hk]; omega)]
    simp only [hk, hnum, Int.toNat_natCast, ite_shift]
    rw [show ((pos + m + 1 : ℕ) : ℤ) - 1 = (pos + m : ℕ) by omega]
  obtain ⟨hmoved, hstay, hframe⟩ := shift_spec (L := L) page pos (pos + 1) (m := m) (by omega) (by omega)
  have hsize := getSize_setSize (L := L) (shift L page pos (pos + 1) m) (x := pos + m) (by omega)
  refine ⟨_, hrun, hsize, ?_, hframe.trans (frame_setSize _ _)⟩
  rw [pairs_eq_append hsize, pairsAt_setSize, pairsAt_setSize, hstay 0 pos (Or.inl (by omega)), hmoved,
    pairs_eq_append (a := pos) (b := 1 + m) (by rw [hk]; omega), pairsAt_add, List.eraseIdx_append_of_length_le (by rw [length_pairsAt]),
    length_pairsAt, Nat.sub_self]
  rfl

/-! ### Searching -/

/-- A node whose keys increase strictly, with room for one more pair. -/
structure Increasing (L : NodeLayout) (page : PageData) : Prop where
  size : 0 ≤ getSize page ∧ getSize page < L.maxSize
  increasing : (pairs L page).Pairwise fun a b => ixCompare L.cols a.1 b.1 < 0

/-- No key has a NaN, which compares equal to everything; no statement stores one. -/
def KeysNoNaN (L : NodeLayout) (page : PageData) : Prop := ∀ p ∈ pairs L page, NoNaN L.cols p.1

/-- A node in which one can search. -/
structure Sorted (L : NodeLayout) (page : PageData) : Prop extends Increasing L page where
  noNaN : KeysNoNaN L page

section Search

variable {target : Bytes}

theorem Increasing.exists_size (h : Increasing L page) : ∃ k : ℕ, getSize page = k ∧ k < L.maxSize := by
  obtain ⟨k, hk⟩ := Int.eq_ofNat_of_zero_le h.size.1
  exact ⟨k, hk, by have := h.size.2; omega⟩

/-- A binary search finds the end of the keys that are below. -/
theorem bsearch_pairs (below : Bytes → Bool) {A B : List (Bytes × Bytes)} (hpairs : pairs L page = A ++ B)
    (hA : ∀ a ∈ A, below a.1 = true) (hB : ∀ b ∈ B, below b.1 = false) :
    bsearch (fun mid => below (getKey L page mid)) (getSize page).toNat 0 (getSize page).toNat = A.length := by
  have hlen : (getSize page).toNat = A.length + B.length := by
    rw [← List.length_append, ← hpairs, pairs, length_pairsAt]
  refine bsearch_eq (by omega) (by omega) (by omega) ?_
  intro i _ hi
  have hget := pairsAt_getElem? (L := L) page 0 hi
  rw [Nat.zero_add] at hget
  change (pairs L page)[i]? = _ at hget
  rw [hpairs] at hget
  by_cases hlt : i < A.length
  · rw [List.getElem?_append_left hlt] at hget
    exact iff_of_true (hA _ (List.mem_of_getElem? hget)) hlt
  · rw [List.getElem?_append_right (by omega)] at hget
    have hfalse : below (getKey L page i) = false := hB _ (List.mem_of_getElem? hget)
    exact iff_of_false (by rw [hfalse]; exact Bool.false_ne_true) hlt

/-- A sorted node splits at a key. -/
theorem Sorted.split (h : Sorted L page) (q : List ℤ → Prop) [DecidablePred q] (hq : ∀ a b, a < b → q b → q a) :
    ∃ A B, pairs L page = A ++ B ∧ (∀ a ∈ A, q (keyVal L.cols a.1)) ∧ ∀ b ∈ B, ¬ q (keyVal L.cols b.1) := by
  have hsorted : SortedKeys ((pairs L page).map fun p => (keyVal L.cols p.1, p.2)) := by
    rw [SortedKeys, List.pairwise_map]
    refine h.increasing.imp_of_mem fun {a b} ha hb hab => ?_
    rwa [ixCompare_eq (h.noNaN a ha) (h.noNaN b hb), sign3_neg_iff] at hab
  obtain ⟨A', B', hmap, hA', hB'⟩ := hsorted.split q hq
  obtain ⟨A, B, hpairs, rfl, rfl⟩ := List.map_eq_append_iff.mp hmap
  exact ⟨A, B, hpairs, fun a ha => hA' _ (List.mem_map_of_mem ha), fun b hb => hB' _ (List.mem_map_of_mem hb)⟩

/-- **`lower_bound`** splits the node into the keys below the target and the others. -/
theorem Sorted.lowerBound (h : Sorted L page) (ht : NoNaN L.cols target) : ∃ A B, pairs L page = A ++ B ∧
    (∀ a ∈ A, ixCompare L.cols a.1 target < 0) ∧ (∀ b ∈ B, 0 ≤ ixCompare L.cols b.1 target) ∧
    lowerBound L page target = A.length := by
  obtain ⟨A, B, hpairs, hA, hB⟩ := h.split (· < keyVal L.cols target) fun a b hab hb => hab.trans hb
  have hmem : ∀ p, p ∈ A ++ B → (ixCompare L.cols p.1 target < 0 ↔ keyVal L.cols p.1 < keyVal L.cols target) := fun p hp => by
    rw [ixCompare_eq (h.noNaN p (hpairs ▸ hp)) ht, sign3_neg_iff]
  have hA' : ∀ a ∈ A, ixCompare L.cols a.1 target < 0 := fun a ha => (hmem a (List.mem_append_left _ ha)).mpr (hA a ha)
  have hB' : ∀ b ∈ B, ¬ ixCompare L.cols b.1 target < 0 := fun b hb => mt (hmem b (List.mem_append_right _ hb)).mp (hB b hb)
  refine ⟨A, B, hpairs, hA', fun b hb => not_lt.mp (hB' b hb), ?_⟩
  exact bsearch_pairs (fun key => decide (ixCompare L.cols key target < 0)) hpairs (fun a ha => decide_eq_true (hA' a ha))
    fun b hb => decide_eq_false (hB' b hb)

/-- **`upper_bound`** splits the node into the keys not above the target and the others. -/
theorem Sorted.upperBound (h : Sorted L page) (ht : NoNaN L.cols target) : ∃ A B, pairs L page = A ++ B ∧
    (∀ a ∈ A, ixCompare L.cols a.1 target ≤ 0) ∧ (∀ b ∈ B, 0 < ixCompare L.cols b.1 target) ∧
    upperBound L page target = A.length := by
  obtain ⟨A, B, hpairs, hA, hB⟩ := h.split (· ≤ keyVal L.cols target) fun a b hab hb => hab.le.trans hb
  have hmem : ∀ p, p ∈ A ++ B → (ixCompare L.cols p.1 target ≤ 0 ↔ keyVal L.cols p.1 ≤ keyVal L.cols target) := fun p hp => by
    rw [ixCompare_eq (h.noNaN p (hpairs ▸ hp)) ht, ← not_lt, sign3_pos_iff, not_lt]
  have hA' : ∀ a ∈ A, ixCompare L.cols a.1 target ≤ 0 := fun a ha => (hmem a (List.mem_append_left _ ha)).mpr (hA a ha)
  have hB' : ∀ b ∈ B, ¬ ixCompare L.cols b.1 target ≤ 0 := fun b hb => mt (hmem b (List.mem_append_right _ hb)).mp (hB b hb)
  refine ⟨A, B, hpairs, hA', fun b hb => not_le.mp (hB' b hb), ?_⟩
  exact bsearch_pairs (fun key => decide (ixCompare L.cols key target ≤ 0)) hpairs (fun a ha => decide_eq_true (hA' a ha))
    fun b hb => decide_eq_false (hB' b hb)

/-- The test behind a binary search. -/
theorem hasKeyAt_iff {A B : List (Bytes × Bytes)} (hsize : 0 ≤ getSize page) (hpairs : pairs L page = A ++ B) :
    hasKeyAt L page A.length target = true ↔ ∃ p B', B = p :: B' ∧ ixCompare L.cols p.1 target = 0 := by
  have hlen : (getSize page).toNat = A.length + B.length := by
    rw [← List.length_append, ← hpairs, pairs, length_pairsAt]
  rw [hasKeyAt, Bool.and_eq_true, decide_eq_true_eq, decide_eq_true_eq]
  cases B with
  | nil =>
    rw [List.length_nil, Nat.add_zero] at hlen
    exact iff_of_false (fun hlt => absurd hlt.1 (by omega)) (by rintro ⟨p, B', hnil, -⟩; cases hnil)
  | cons p B' =>
    rw [List.length_cons] at hlen
    have hget := pairsAt_getElem? (L := L) page 0 (show A.length < (getSize page).toNat by omega)
    rw [Nat.zero_add] at hget
    change (pairs L page)[A.length]? = _ at hget
    rw [hpairs, List.getElem?_append_right (Nat.le_refl _), Nat.sub_self, List.getElem?_cons_zero, Option.some.injEq] at hget
    constructor
    · rintro ⟨-, hzero⟩
      exact ⟨p, B', rfl, by rw [hget]; exact hzero⟩
    · rintro ⟨p', B'', hcons, hzero⟩
      obtain ⟨rfl, rfl⟩ := List.cons.inj hcons
      rw [hget] at hzero
      exact ⟨by omega, hzero⟩

/-- The split at a key that the node does not hold. -/
theorem Sorted.absent (h : Sorted L page) (ht : NoNaN L.cols target) (hno : ∀ p ∈ pairs L page, ixCompare L.cols p.1 target ≠ 0) :
    ∃ A B, pairs L page = A ++ B ∧ (∀ a ∈ A, ixCompare L.cols a.1 target < 0) ∧ (∀ b ∈ B, 0 < ixCompare L.cols b.1 target) ∧
      NodePage.lowerBound L page target = A.length ∧ hasKeyAt L page A.length target = false := by
  obtain ⟨A, B, hpairs, hA, hB, hbound⟩ := h.lowerBound ht
  have hmem : ∀ b ∈ B, b ∈ pairs L page := fun b hb => hpairs ▸ List.mem_append_right _ hb
  refine ⟨A, B, hpairs, hA, fun b hb => lt_of_le_of_ne (hB b hb) (hno b (hmem b hb)).symm, hbound, ?_⟩
  rw [← Bool.not_eq_true, hasKeyAt_iff h.size.1 hpairs]
  rintro ⟨p, B', rfl, hzero⟩
  exact hno p (hmem p List.mem_cons_self) hzero

/-- The split at a key that the node holds. -/
theorem Sorted.present (h : Sorted L page) (ht : NoNaN L.cols target) {p : Bytes × Bytes} (hp : p ∈ pairs L page)
    (hzero : ixCompare L.cols p.1 target = 0) :
    ∃ A B, pairs L page = A ++ p :: B ∧ (∀ q ∈ A ++ B, ixCompare L.cols q.1 target ≠ 0) ∧
      NodePage.lowerBound L page target = A.length ∧ hasKeyAt L page A.length target = true := by
  obtain ⟨A, B, hpairs, hA, hB, hbound⟩ := h.lowerBound ht
  have hmem : ∀ q, q ∈ A ++ B → q ∈ pairs L page := fun q hq => hpairs ▸ hq
  have hval : ∀ q ∈ pairs L page, (ixCompare L.cols q.1 target = 0 ↔ keyVal L.cols q.1 = keyVal L.cols target) := fun q hq => by
    rw [ixCompare_eq (h.noNaN q hq) ht, sign3_zero_iff]
  have hinc := h.increasing
  rw [hpairs, List.pairwise_append] at hinc
  cases B with
  | nil =>
    rw [List.append_nil] at hpairs
    exact absurd (hA p (hpairs ▸ hp)) (by omega)
  | cons b B =>
    -- the keys after the first one of the rest are above the target
    have habove : ∀ q ∈ B, ixCompare L.cols q.1 target ≠ 0 := by
      intro q hq hq0
      have hbq := (List.pairwise_cons.mp hinc.2.1).1 q hq
      have hbmem := hmem b (List.mem_append_right _ List.mem_cons_self)
      have hqmem := hmem q (List.mem_append_right _ (List.mem_cons_of_mem _ hq))
      rw [ixCompare_eq (h.noNaN b hbmem) (h.noNaN q hqmem), sign3_neg_iff, (hval q hqmem).mp hq0, ← sign3_neg_iff,
        ← ixCompare_eq (h.noNaN b hbmem) ht] at hbq
      exact absurd (hB b List.mem_cons_self) (by omega)
    have hbp : p = b := by
      rw [hpairs] at hp
      rcases List.mem_append.mp hp with hp | hp
      · exact absurd (hA p hp) (by omega)
      · rcases List.mem_cons.mp hp with hp | hp
        · exact hp
        · exact absurd hzero (habove p hp)
    subst hbp
    refine ⟨A, B, hpairs, ?_, hbound, (hasKeyAt_iff h.size.1 hpairs).mpr ⟨p, B, rfl, hzero⟩⟩
    intro q hq
    rcases List.mem_append.mp hq with hq | hq
    · exact (hA q hq).ne
    · exact habove q hq

end Search

/-! ### The node as a sorted list -/

/-- **What the operations do** to the pairs of a node. Those that search do so if no key, and not the target, has a NaN. -/
structure NodeActs (L : NodeLayout) (page : PageData) : Prop where
  /-- `lower_bound` is the number of keys below the target. -/
  lowerBound : KeysNoNaN L page → ∀ target, NoNaN L.cols target →
    lowerBound L page target = (pairs L page).countP fun p => ixCompare L.cols p.1 target < 0
  /-- `upper_bound` is the number of keys not above the target. -/
  upperBound : KeysNoNaN L page → ∀ target, NoNaN L.cols target →
    upperBound L page target = (pairs L page).countP fun p => ixCompare L.cols p.1 target ≤ 0
  /-- `insert` leaves a page that has the key as it is. -/
  insertPresent : KeysNoNaN L page → ∀ key value, NoNaN L.cols key → (∃ p ∈ pairs L page, ixCompare L.cols p.1 key = 0) →
    insert L page key value = some (page, getSize page)
  /-- `insert` adds a new pair behind those with a key below, and returns the number of pairs. -/
  insertAbsent : KeysNoNaN L page → ∀ key value, NoNaN L.cols key → key.length = L.keyLen → value.length = sizeofRid →
    (∀ p ∈ pairs L page, ixCompare L.cols p.1 key ≠ 0) → ∃ page' A B, insert L page key value = some (page', getSize page + 1) ∧
      pairs L page = A ++ B ∧ (∀ a ∈ A, ixCompare L.cols a.1 key < 0) ∧ (∀ b ∈ B, 0 < ixCompare L.cols b.1 key) ∧
      pairs L page' = A ++ (key, value) :: B ∧ Frame L page page'
  /-- `remove` leaves a page without the key as it is. -/
  removeAbsent : KeysNoNaN L page → ∀ key, NoNaN L.cols key → (∀ p ∈ pairs L page, ixCompare L.cols p.1 key ≠ 0) →
    remove L page key = some (page, getSize page)
  /-- `remove` takes out the pair with the key, which is the only one, and returns the number of pairs. -/
  removePresent : KeysNoNaN L page → ∀ key, NoNaN L.cols key → ∀ p ∈ pairs L page, ixCompare L.cols p.1 key = 0 →
    ∃ page' A B, remove L page key = some (page', getSize page - 1) ∧ pairs L page = A ++ p :: B ∧
      (∀ q ∈ A ++ B, ixCompare L.cols q.1 key ≠ 0) ∧ pairs L page' = A ++ B ∧ Frame L page page'
  /-- `insert_pairs` splices the pairs in. -/
  insertPairs : ∀ (pos n : ℕ) key rid, pos ≤ getSize page → getSize page + n ≤ L.maxSize → key.length = n * L.keyLen →
    rid.length = n * sizeofRid → ∃ page', insertPairs L page pos key rid n = some page' ∧ getSize page' = getSize page + n ∧
      pairs L page' = (pairs L page).take pos ++ (chunks L.keyLen n key).zip (chunks sizeofRid n rid) ++ (pairs L page).drop pos ∧
      Frame L page page'
  /-- `erase_pair` drops one. -/
  erasePair : ∀ pos : ℕ, pos < getSize page → ∃ page', erasePair L page pos = some page' ∧ getSize page' = getSize page - 1 ∧
    pairs L page' = (pairs L page).eraseIdx pos ∧ Frame L page page'

/-- The pairs before a place are those that the search counts. -/
theorem countP_split {α : Type} {A B : List α} {q : α → Bool} (hA : ∀ a ∈ A, q a = true) (hB : ∀ b ∈ B, q b = false) :
    (A ++ B).countP q = A.length := by
  rw [List.countP_append, List.countP_eq_length.mpr hA, List.countP_eq_zero.mpr fun b hb => by simp [hB b hb], Nat.add_zero]

/-- **A node page is a sorted list of pairs** to the operations on its bytes. -/
theorem nodeActs (hinc : Increasing L page) : NodeActs L page := by
  obtain ⟨k, hk, hmax⟩ := hinc.exists_size
  have hlen : (pairs L page).length = k := by rw [pairs, length_pairsAt, hk, Int.toNat_natCast]
  refine ⟨?_, ?_, ?_, ?_, ?_, ?_, ?_, ?_⟩
  · intro hnan target ht
    obtain ⟨A, B, hpairs, hA, hB, hbound⟩ := Sorted.lowerBound ⟨hinc, hnan⟩ ht
    rw [hbound, hpairs, countP_split (fun a ha => decide_eq_true (hA a ha)) fun b hb => decide_eq_false (not_lt.mpr (hB b hb))]
  · intro hnan target ht
    obtain ⟨A, B, hpairs, hA, hB, hbound⟩ := Sorted.upperBound ⟨hinc, hnan⟩ ht
    rw [hbound, hpairs, countP_split (fun a ha => decide_eq_true (hA a ha)) fun b hb => decide_eq_false (not_le.mpr (hB b hb))]
  · intro hnan key value hkey hex
    obtain ⟨p, hp, hzero⟩ := hex
    obtain ⟨A, B, -, -, hbound, hhas⟩ := Sorted.present ⟨hinc, hnan⟩ hkey hp hzero
    rw [insert, hbound, if_pos hhas]
  · intro hnan key value hkey hklen hvlen hno
    obtain ⟨A, B, hpairs, hA, hB, hbound, hhas⟩ := Sorted.absent ⟨hinc, hnan⟩ hkey hno
    have hAlen : A.length ≤ k := by
      rw [← hlen, hpairs, List.length_append]
      omega
    obtain ⟨page', hrun, hsize, hpairs', hframe⟩ := insertPairs_spec hk hAlen (Nat.succ_le_of_lt hmax)
      (hklen.trans (Nat.one_mul _).symm) (hvlen.trans (Nat.one_mul _).symm)
    refine ⟨page', A, B, ?_, hpairs, hA, hB, ?_, hframe⟩
    · rw [insert, hbound, hhas, if_neg Bool.false_ne_true, hrun, Option.map_some, hsize, hk]
      rfl
    · rw [hpairs', hpairs, List.take_left, List.drop_left, chunks_one hklen, chunks_one hvlen, List.append_assoc]
      rfl
  · intro hnan key hkey hno
    obtain ⟨A, B, -, -, -, hbound, hhas⟩ := Sorted.absent ⟨hinc, hnan⟩ hkey hno
    rw [remove, hbound, hhas, if_neg Bool.false_ne_true]
  · intro hnan key hkey p hp hzero
    obtain ⟨A, B, hpairs, hothers, hbound, hhas⟩ := Sorted.present ⟨hinc, hnan⟩ hkey hp hzero
    have hAlen : A.length < k := by
      rw [← hlen, hpairs, List.length_append, List.length_cons]
      omega
    obtain ⟨page', hrun, hsize, hpairs', hframe⟩ := erasePair_spec hk hmax.le hAlen
    refine ⟨page', A, B, ?_, hpairs, hothers, ?_, hframe⟩
    · rw [remove, hbound, if_pos hhas, hrun, Option.map_some, hsize, hk, Int.natCast_sub (by omega)]
      rfl
    · rw [hpairs', hpairs, List.eraseIdx_append_of_length_le (Nat.le_refl _), Nat.sub_self]
      rfl
  · intro pos n key rid hpos hn hklen hrlen
    obtain ⟨page', hrun, hsize, hpairs', hframe⟩ := insertPairs_spec hk (show pos ≤ k by omega) (by omega) hklen hrlen
    exact ⟨page', hrun, by rw [hsize, hk, Int.natCast_add], hpairs', hframe⟩
  · intro pos hpos
    obtain ⟨page', hrun, hsize, hpairs', hframe⟩ := erasePair_spec hk hmax.le (show pos < k by omega)
    exact ⟨page', hrun, by rw [hsize, hk]; omega, hpairs', hframe⟩

/-! ### The node of the tree -/

/-- The `Rid` in eight bytes. -/
def ridOf (bs : Bytes) : Rid := ⟨leInt 4 bs, leInt 4 (bs.drop 4)⟩

/-- A pair as the tree sees it. -/
def pairOf (L : NodeLayout) (p : Bytes × Bytes) : List ℤ × Rid := (keyVal L.cols p.1, ridOf p.2)

/-- The node on a page. -/
def toNode (L : NodeLayout) (page : PageData) : Node (List ℤ) where
  isLeaf := decide (cellAt page 12 ≠ 0)
  parent := intAt page 4
  prevLeaf := intAt page 16
  nextLeaf := intAt page 20
  pairs := (pairs L page).map (pairOf L)

/-- The rest of the header is not the business of the operations. -/
theorem Frame.toNode {page' : PageData} (h : Frame L page page') :
    toNode L page' = { toNode L page with pairs := (pairs L page').map (pairOf L) } := by
  have hint : ∀ offset, offset + 4 ≤ numKeyOffset ∨ (numKeyOffset + 4 ≤ offset ∧ offset + 4 ≤ sizeofIxPageHdr) →
      intAt page' offset = intAt page offset := by
    intro offset hoff
    rw [intAt, intAt]
    refine congrArg _ (List.map_congr_left fun i hi => h _ ?_)
    have := List.mem_range.mp hi
    unfold Owns
    unfold numKeyOffset sizeofIxPageHdr at *
    omega
  have hleaf : cellAt page' 12 = cellAt page 12 := h 12 (by unfold Owns numKeyOffset sizeofIxPageHdr; omega)
  rw [NodePage.toNode, NodePage.toNode, hleaf, hint 4 (by decide), hint 16 (by decide), hint 20 (by decide)]

/-- `insert_pairs` on the page is `insert_pairs` on the node. -/
theorem toNode_insertPairs {key rid : Bytes} (hk : getSize page = k) (hpos : pos ≤ k) (hn : k + n ≤ L.maxSize)
    (hkey : key.length = n * L.keyLen) (hrid : rid.length = n * sizeofRid) :
    (insertPairs L page pos key rid n).map (toNode L) =
      (toNode L page).insertPairs L.maxSize pos (((chunks L.keyLen n key).zip (chunks sizeofRid n rid)).map (pairOf L)) := by
  obtain ⟨page', hrun, -, hpairs, hframe⟩ := insertPairs_spec hk hpos hn hkey hrid
  have hsize : (toNode L page).size = k := by
    rw [Node.size, toNode, List.length_map, pairs, length_pairsAt, hk, Int.toNat_natCast]
  rw [hrun, Option.map_some, hframe.toNode, hpairs, Node.insertPairs, hsize, if_pos]
  · simp only [toNode, List.map_append, List.map_take, List.map_drop]
  · rw [List.length_map, List.length_zip, length_chunks, length_chunks, Nat.min_self]
    exact ⟨hpos, hn⟩

/-- `erase_pair` on the page is `erase_pair` on the node. -/
theorem toNode_erasePair (hk : getSize page = k) (hmax : k ≤ L.maxSize) (hpos : pos < k) :
    (erasePair L page pos).map (toNode L) = (toNode L page).erasePair pos := by
  obtain ⟨page', hrun, -, hpairs, hframe⟩ := erasePair_spec hk hmax hpos
  have hsize : (toNode L page).size = k := by
    rw [Node.size, toNode, List.length_map, pairs, length_pairsAt, hk, Int.toNat_natCast]
  rw [hrun, Option.map_some, hframe.toNode, hpairs, Node.erasePair, hsize, if_pos hpos]
  simp only [toNode, List.eraseIdx_map]

section Tree

variable {key value : Bytes} (h : Sorted L page) (hkey : NoNaN L.cols key)
include h hkey

/-- `lower_bound` on the page is `lower_bound` on the node. -/
theorem lowerBound_toNode : lowerBound L page key = (toNode L page).lowerBound (keyVal L.cols key) := by
  obtain ⟨A, B, hpairs, hA, hB, hbound⟩ := h.lowerBound hkey
  have hnan : ∀ p ∈ A ++ B, NoNaN L.cols p.1 := hpairs ▸ h.noNaN
  have hmap : (toNode L page).pairs = A.map (pairOf L) ++ B.map (pairOf L) := by rw [toNode, hpairs, List.map_append]
  rw [hbound, Node.lowerBound_eq hmap, List.length_map]
  · intro a ha
    obtain ⟨p, hp, rfl⟩ := List.mem_map.mp ha
    have hlt := hA p hp
    rwa [ixCompare_eq (hnan p (List.mem_append_left _ hp)) hkey, sign3_neg_iff] at hlt
  · intro b hb
    obtain ⟨p, hp, rfl⟩ := List.mem_map.mp hb
    have hge := hB p hp
    rwa [ixCompare_eq (hnan p (List.mem_append_right _ hp)) hkey, ← not_lt, sign3_neg_iff, not_lt] at hge

/-- The test behind it, on the page and on the node. -/
theorem hasKeyAt_toNode (pos : ℕ) : hasKeyAt L page pos key = (toNode L page).hasKeyAt pos (keyVal L.cols key) := by
  obtain ⟨k, hk, -⟩ := h.exists_size
  have hsize : (toNode L page).size = k := by
    rw [Node.size, toNode, List.length_map, pairs, length_pairsAt, hk, Int.toNat_natCast]
  rw [hasKeyAt, Node.hasKeyAt, hsize, hk]
  by_cases hpos : pos < k
  · have hget := pairsAt_getElem? (L := L) page 0 (show pos < (getSize page).toNat by omega)
    rw [Nat.zero_add] at hget
    change (pairs L page)[pos]? = _ at hget
    have hmem := h.noNaN _ (List.mem_of_getElem? hget)
    have hnode : (toNode L page).keyAt pos = some (keyVal L.cols (getKey L page pos)) := by
      rw [Node.keyAt, toNode, List.getElem?_map, hget]
      rfl
    have hzero : ixCompare L.cols (getKey L page pos) key = 0 ↔ some (keyVal L.cols (getKey L page pos)) = some (keyVal L.cols key) := by
      rw [Option.some.injEq, ixCompare_eq hmem hkey, sign3_zero_iff]
    rw [hnode, decide_eq_decide.mpr hzero, decide_eq_true hpos, decide_eq_true (by omega)]
  · rw [decide_eq_false (by omega), decide_eq_false hpos, Bool.false_and, Bool.false_and]

/-- **`insert`** on the page is `insert` on the node. -/
theorem toNode_insert (hklen : key.length = L.keyLen) (hvlen : value.length = sizeofRid) :
    (insert L page key value).map (fun r => toNode L r.1) =
      (toNode L page).insert L.maxSize (keyVal L.cols key) (ridOf value) := by
  obtain ⟨k, hk, hmax⟩ := h.exists_size
  obtain ⟨A, B, hpairs, -, -, hbound⟩ := h.lowerBound hkey
  have hAlen : A.length ≤ k := by
    have hlen : (pairs L page).length = k := by rw [pairs, length_pairsAt, hk, Int.toNat_natCast]
    rw [hpairs, List.length_append] at hlen
    omega
  rw [insert, Node.insert, ← lowerBound_toNode h hkey, ← hasKeyAt_toNode h hkey]
  split
  · rfl
  · have hrun := toNode_insertPairs hk (hbound ▸ hAlen) (Nat.succ_le_of_lt hmax) (hklen.trans (Nat.one_mul _).symm)
      (hvlen.trans (Nat.one_mul _).symm)
    rw [chunks_one hklen, chunks_one hvlen] at hrun
    rw [Option.map_map, Node.insertPair]
    exact hrun

/-- **`remove`** on the page is `remove` on the node. -/
theorem toNode_remove : (remove L page key).map (fun r => toNode L r.1) = (toNode L page).remove (keyVal L.cols key) := by
  obtain ⟨k, hk, hmax⟩ := h.exists_size
  rw [remove, Node.remove, ← lowerBound_toNode h hkey, ← hasKeyAt_toNode h hkey]
  split
  · rename_i hhas
    rw [hasKeyAt, Bool.and_eq_true, decide_eq_true_eq, hk] at hhas
    rw [Option.map_map]
    exact toNode_erasePair hk hmax.le (by omega)
  · rfl

end Tree

/-! ### Two pairs -/

/-- The nodes of an index on an `INT`. -/
def intLayout : NodeLayout := .create [(.int, 4)] (by decide)

/-- A node with the keys `-1` and `7`. -/
def twoPairs : PageData :=
  (insertPairs intLayout Storage.zeros 0 (intBytes 4 (-1) ++ intBytes 4 7) [1, 0, 0, 0, 0, 0, 0, 0, 1, 0, 0, 0, 1, 0, 0, 0] 2).getD
    Storage.zeros

theorem pairs_twoPairs : getSize twoPairs = 2 ∧
    pairs intLayout twoPairs = [(intBytes 4 (-1), [1, 0, 0, 0, 0, 0, 0, 0]), (intBytes 4 7, [1, 0, 0, 0, 1, 0, 0, 0])] := by
  have hempty : getSize Storage.zeros = (0 : ℕ) := by decide +kernel
  obtain ⟨page', hrun, hsize, hpairs, -⟩ := insertPairs_spec (L := intLayout) hempty (Nat.le_refl 0)
    (show 0 + 2 ≤ intLayout.maxSize by decide) (show (intBytes 4 (-1) ++ intBytes 4 7).length = 2 * intLayout.keyLen by decide)
    (show ([1, 0, 0, 0, 0, 0, 0, 0, 1, 0, 0, 0, 1, 0, 0, 0] : Bytes).length = 2 * sizeofRid by decide)
  have htwo : twoPairs = page' := by rw [twoPairs, hrun, Option.getD_some]
  have hnil : pairs intLayout Storage.zeros = [] := List.eq_nil_of_length_eq_zero (by rw [pairs, length_pairsAt, hempty]; rfl)
  refine ⟨by rw [htwo, hsize]; rfl, ?_⟩
  rw [htwo, hpairs, hnil]
  decide +kernel

/-- The key `3` goes between the two, `7` is taken out, and there are two keys up to `7`. -/
theorem nodeActs_twoPairs : upperBound intLayout twoPairs (intBytes 4 7) = 2 ∧
    (∃ page', insert intLayout twoPairs (intBytes 4 3) [2, 0, 0, 0, 0, 0, 0, 0] = some (page', 3) ∧
      Frame intLayout twoPairs page') ∧
    ∃ page', remove intLayout twoPairs (intBytes 4 7) = some (page', 1) ∧ Frame intLayout twoPairs page' := by
  obtain ⟨hsize, hpairs⟩ := pairs_twoPairs
  have hincreasing : Increasing intLayout twoPairs := by
    refine ⟨by rw [hsize]; decide, ?_⟩
    rw [hpairs]
    decide +kernel
  have hnan : KeysNoNaN intLayout twoPairs := fun _ _ => ⟨nofun, trivial⟩
  have hacts : NodeActs intLayout twoPairs := nodeActs hincreasing
  refine ⟨?_, ?_, ?_⟩
  · rw [hacts.upperBound hnan _ ⟨nofun, trivial⟩, hpairs]
    decide +kernel
  · obtain ⟨page', A, B, hrun, -, -, -, -, hframe⟩ := hacts.insertAbsent hnan (intBytes 4 3) [2, 0, 0, 0, 0, 0, 0, 0]
      ⟨nofun, trivial⟩ (by decide) (by decide) (by rw [hpairs]; decide +kernel)
    rw [hsize] at hrun
    exact ⟨page', hrun, hframe⟩
  · obtain ⟨page', A, B, hrun, -, -, -, hframe⟩ := hacts.removePresent hnan (intBytes 4 7) ⟨nofun, trivial⟩
      (intBytes 4 7, [1, 0, 0, 0, 1, 0, 0, 0]) (by rw [hpairs]; simp) (by decide +kernel)
    rw [hsize] at hrun
    exact ⟨page', hrun, hframe⟩

/-- The nodes of an index on a `FLOAT` and an `INT`. -/
def floatLayout : NodeLayout := .create [(.float, 4), (.int, 4)] (by decide)

/-- A node with the keys `(1.0, 5)` and `(2.0, 0)`. -/
def floatPairs : PageData :=
  (insertPairs floatLayout Storage.zeros 0 (leBytes 4 0x3f800000 ++ intBytes 4 5 ++ (leBytes 4 0x40000000 ++ intBytes 4 0))
    [1, 0, 0, 0, 0, 0, 0, 0, 1, 0, 0, 0, 1, 0, 0, 0] 2).getD Storage.zeros

/-- A NaN is equal to both numbers, so that one of the two keys is below `(NaN, 3)`; but `lower_bound` is 2. -/
theorem lowerBound_fails : Increasing floatLayout floatPairs ∧
    lowerBound floatLayout floatPairs (leBytes 4 0x7fc00000 ++ intBytes 4 3) = 2 ∧
    ((pairs floatLayout floatPairs).countP fun p => ixCompare floatLayout.cols p.1 (leBytes 4 0x7fc00000 ++ intBytes 4 3) < 0) = 1 := by
  have hsize : getSize floatPairs = 2 := by decide +kernel
  have hpairs : pairs floatLayout floatPairs = [(leBytes 4 0x3f800000 ++ intBytes 4 5, [1, 0, 0, 0, 0, 0, 0, 0]),
      (leBytes 4 0x40000000 ++ intBytes 4 0, [1, 0, 0, 0, 1, 0, 0, 0])] := by decide +kernel
  refine ⟨⟨by rw [hsize]; decide, ?_⟩, by decide +kernel, ?_⟩
  · rw [hpairs]
    decide +kernel
  · rw [hpairs]
    decide +kernel

end NodePage

end Rmdb.Index
