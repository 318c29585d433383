import Rmdb.Index.Paged

/-!
# What the bytes of a node stand for

A page stands for a node of the tree (`Stores`) whose keys are the bytes of keys, in the order of `ix_compare`. Each operation on
the bytes of a page does what the operation of `Node` does to the node: the searches land where those land, and what is written
stands for the node that has been written.

The columns are not `FLOAT`: the two zeros of that type compare equal, but not to the `memcmp` of `maintain_parent`.
-/

namespace Rmdb.Index

open Lib Storage
open Record (InInt intAt setInt intAt_setInt intAt_copyTo length_intBytes leInt_intBytes)

/-- The layout of the nodes of an index without `FLOAT` columns. -/
structure TreeLayout extends NodeLayout where
  /-- Every column is a key column. -/
  ok : ∀ c ∈ cols, KeyCol c

namespace TreeLayout

/-- The columns. -/
def keyCols (T : TreeLayout) : KeyCols := ⟨T.cols, T.ok⟩

/-- A node of the tree. -/
abbrev TreeNode (T : TreeLayout) := Node (Key T.keyCols)

/-- The nodes of an index that `create_index` has made. -/
def create (kc : KeyCols) (h : colTotLen kc.cols ≤ IX_MAX_COL_LEN) : TreeLayout := { NodeLayout.create kc.cols h with ok := kc.ok }

theorem length_key (T : TreeLayout) (key : Key T.keyCols) : key.1.length = T.keyLen := key.2

end TreeLayout

/-- The numbers of a `Rid` are `int`s. -/
def RidOk (rid : Rid) : Prop := InInt rid.pageNo ∧ InInt rid.slotNo

namespace NodePage

/-- A pair as its bytes are read. -/
def readPair (p : Bytes × Bytes) : Bytes × Rid := (p.1, ridOf p.2)

/-- An entry with the bytes of its key. -/
def barePair {kc : KeyCols} (e : Key kc × Rid) : Bytes × Rid := (e.1.1, e.2)

/-- **The page stands for the node.** -/
structure Stores (T : TreeLayout) (page : PageData) (n : T.TreeNode) : Prop where
  size : getSize page = n.size
  room : n.size ≤ T.maxSize
  isLeaf : isLeafPage page = n.isLeaf
  parent : getParentPageNo page = n.parent
  prevLeaf : intAt page 16 = n.prevLeaf
  nextLeaf : getNextLeaf page = n.nextLeaf
  pairs : (pairs T.toNodeLayout page).map readPair = n.pairs.map barePair

variable {T : TreeLayout} {page : PageData} {n n' : T.TreeNode} {key : Key T.keyCols} {rid : Rid} {i : ℕ}

theorem leInt_append {x : ℤ} (hx : InInt x) (rest : Bytes) : leInt 4 (intBytes 4 x ++ rest) = x := by
  rw [leInt_congr (b := intBytes 4 x), leInt_intBytes hx]
  intro i hi
  rw [List.getD_append _ _ _ _ (by rw [length_intBytes]; exact hi)]

/-- An `int` of a page fits into an `int`. -/
theorem inInt_intAt (page : PageData) (offset : ℕ) : InInt (intAt page offset) := by
  have hlt := leNat_lt 4 (cellsAt page offset 4)
  unfold intAt leInt InInt
  split <;> omega

/-- A `Rid` is read as it was written. -/
theorem ridOf_ridBytes (h : RidOk rid) : ridOf (ridBytes rid) = rid := by
  have hslot := leInt_append h.2 []
  rw [List.append_nil] at hslot
  rw [ridOf, ridBytes, leInt_append h.1, List.drop_left' (length_intBytes ..), hslot]

@[simp] theorem length_ridBytes (rid : Rid) : (ridBytes rid).length = sizeofRid := by
  rw [ridBytes, List.length_append, length_intBytes, length_intBytes]
  rfl

/-! ### Reading -/

/-- The key and the rid of a slot. -/
theorem Stores.get (h : Stores T page n) (hi : i < n.size) :
    ∃ e, n.pairs[i]? = some e ∧ getKey T.toNodeLayout page i = e.1.1 ∧ ridOf (getRid T.toNodeLayout page i) = e.2 := by
  have hget := pairsAt_getElem? (L := T.toNodeLayout) page 0 (show i < (getSize page).toNat by rw [h.size]; exact hi)
  rw [Nat.zero_add] at hget
  change (NodePage.pairs T.toNodeLayout page)[i]? = _ at hget
  have hmap := congrArg (·[i]?) h.pairs
  simp only [List.getElem?_map, hget, Option.map_some] at hmap
  obtain ⟨e, he, heq⟩ := Option.map_eq_some_iff.mp hmap.symm
  obtain ⟨hkey, hrid⟩ := Prod.mk.inj heq
  exact ⟨e, he, hkey.symm, hrid.symm⟩

theorem Stores.toNat_size (h : Stores T page n) : (getSize page).toNat = n.size := by rw [h.size, Int.toNat_natCast]

/-- Both binary searches land in the same slot. -/
theorem Stores.bound (h : Stores T page n) (below : Bytes → Bool) (below' : Key T.keyCols → Bool) (heq : ∀ k, below k.1 = below' k) :
    bsearch (fun mid => below (getKey T.toNodeLayout page mid)) (getSize page).toNat 0 (getSize page).toNat = n.bound below' := by
  rw [h.toNat_size, Node.bound]
  refine bsearch_congr ?_
  intro i _ hi
  obtain ⟨e, he, hkey, -⟩ := h.get hi
  rw [Node.keyAt, he, hkey]
  exact heq e.1

theorem Stores.lowerBound (h : Stores T page n) : lowerBound T.toNodeLayout page key.1 = n.lowerBound key :=
  h.bound (fun k => decide (ixCompare T.cols k key.1 < 0)) (fun k => decide (k < key)) fun _ => rfl

theorem Stores.upperBound (h : Stores T page n) : upperBound T.toNodeLayout page key.1 = n.upperBound key :=
  h.bound (fun k => decide (ixCompare T.cols k key.1 ≤ 0)) (fun k => decide (k ≤ key)) fun _ => rfl

theorem Stores.hasKeyAt (h : Stores T page n) : hasKeyAt T.toNodeLayout page i key.1 = n.hasKeyAt i key := by
  rw [NodePage.hasKeyAt, Node.hasKeyAt, h.size]
  by_cases hi : i < n.size
  · obtain ⟨e, he, hkey, -⟩ := h.get hi
    rw [Node.keyAt, he, hkey, Option.map_some, decide_eq_true hi, decide_eq_true (show (i : ℤ) < n.size by omega)]
    refine congrArg _ (decide_eq_decide.mpr ?_)
    rw [Option.some.injEq]
    exact (Key.eq_iff e.1 key).symm
  · rw [decide_eq_false hi, decide_eq_false (show ¬ (i : ℤ) < n.size by omega), Bool.false_and, Bool.false_and]

theorem Node.hasKeyAt_lt {m : T.TreeNode} (h : m.hasKeyAt i key = true) : i < m.size := by
  rw [Node.hasKeyAt, Bool.and_eq_true] at h
  exact of_decide_eq_true h.1

theorem Stores.leafLookup (h : Stores T page n) : leafLookup T.toNodeLayout page key.1 = n.leafLookup key := by
  rw [NodePage.leafLookup, Node.leafLookup, h.lowerBound, h.hasKeyAt]
  split
  · obtain ⟨e, he, -, hrid⟩ := h.get (Node.hasKeyAt_lt ‹_›)
    rw [he, hrid]
    rfl
  · rfl

theorem Stores.valueAt (h : Stores T page n) {c : ℤ} (hc : n.valueAt i = some c) : valueAt T.toNodeLayout page i = c := by
  obtain ⟨e, he, rfl⟩ := Option.map_eq_some_iff.mp hc
  obtain ⟨e', he', -, hrid⟩ := h.get (i := i) (List.getElem?_eq_some_iff.mp he).1
  obtain rfl := Option.some.inj (he.symm.trans he')
  rw [NodePage.valueAt, hrid]

theorem Stores.internalLookup (h : Stores T page n) {c : ℤ} (hc : n.internalLookup key = some c) :
    internalLookup T.toNodeLayout page key.1 = c := by
  rw [NodePage.internalLookup, h.upperBound]
  exact h.valueAt hc

theorem Stores.keyAt (h : Stores T page n) {k : Key T.keyCols} (hk : n.keyAt i = some k) : getKey T.toNodeLayout page i = k.1 := by
  obtain ⟨e, he, rfl⟩ := Option.map_eq_some_iff.mp hk
  obtain ⟨e', he', hkey, -⟩ := h.get (i := i) (List.getElem?_eq_some_iff.mp he).1
  obtain rfl := Option.some.inj (he.symm.trans he')
  exact hkey

theorem Stores.findChild (h : Stores T page n) {c : ℤ} (hc : n.findChild c = some i) :
    findChild T.toNodeLayout page c = some i := by
  have hvalue : ∀ j e, n.pairs[j]? = some e → NodePage.valueAt T.toNodeLayout page j = e.2.pageNo := fun j e he =>
    h.valueAt (by rw [Node.valueAt, he]; rfl)
  obtain ⟨hi, heq, hbefore⟩ := List.findIdx?_eq_some_iff_getElem.mp hc
  rw [NodePage.findChild, h.toNat_size, List.find?_range_eq_some]
  refine ⟨?_, List.mem_range.mpr hi, ?_⟩
  · rw [hvalue i _ (List.getElem?_eq_getElem hi)]
    exact heq
  · intro j hj
    rw [hvalue j _ (List.getElem?_eq_getElem (hj.trans hi)), Bool.not_eq_true']
    exact decide_eq_false fun hjc => hbefore j hj (decide_eq_true hjc)

/-! ### Writing the header -/

/-- Bytes of the header outside `num_key` say nothing about the pairs. -/
theorem pairs_header (L : NodeLayout) (page : PageData) {offset : ℕ} {src : Bytes} (h : offset + src.length ≤ sizeofIxPageHdr)
    (hd : offset + src.length ≤ numKeyOffset ∨ numKeyOffset + 4 ≤ offset) :
    getSize (copyTo page offset src) = getSize page ∧ NodePage.pairs L (copyTo page offset src) = NodePage.pairs L page := by
  have hfits : offset + src.length ≤ PAGE_SIZE := h.trans (by decide)
  have hsize : getSize (copyTo page offset src) = getSize page := intAt_copyTo hfits hd
  have hkey : sizeofIxPageHdr ≤ L.keyOffset 0 := Nat.le_add_right ..
  have hrid : sizeofIxPageHdr ≤ L.ridOffset 0 := (Nat.le_add_right ..).trans (Nat.le_add_right ..)
  refine ⟨hsize, ?_⟩
  rw [NodePage.pairs, hsize]
  exact pairsAt_congr (items_copyTo_of_disjoint hfits (Or.inl (h.trans hkey))) (items_copyTo_of_disjoint hfits (Or.inl (h.trans hrid)))

/-- An `int` of the header is written, and the rest of the node stays. -/
theorem header_setInt (L : NodeLayout) (page : PageData) (x : ℤ) {offset : ℕ} (hfits : offset + 4 ≤ sizeofIxPageHdr)
    (hd : offset + 4 ≤ numKeyOffset ∨ 13 ≤ offset) :
    getSize (setInt page offset x) = getSize page ∧ NodePage.pairs L (setInt page offset x) = NodePage.pairs L page ∧
      isLeafPage (setInt page offset x) = isLeafPage page ∧
      ∀ o, offset + 4 ≤ o ∨ o + 4 ≤ offset → intAt (setInt page offset x) o = intAt page o := by
  have hlen : (intBytes 4 x).length = 4 := length_intBytes ..
  have hpage : offset + (intBytes 4 x).length ≤ PAGE_SIZE := by
    rw [hlen]
    exact hfits.trans (by decide)
  have hnum : numKeyOffset = 8 := rfl
  obtain ⟨hsize, hpairs⟩ := pairs_header L page (hlen ▸ hfits) (show offset + (intBytes 4 x).length ≤ numKeyOffset ∨ _ by rw [hlen]; omega)
  refine ⟨hsize, hpairs, ?_, fun o ho => intAt_copyTo hpage ?_⟩
  · rw [isLeafPage, setInt, cellAt_copyTo_of_disjoint hpage (by rw [hlen]; omega)]
    rfl
  · rw [hlen]
    omega

/-- `next_free_page_no`, which nothing reads. -/
theorem Stores.setFree (h : Stores T page n) {p : ℤ} : Stores T (setInt page 0 p) n := by
  obtain ⟨hsize, hpairs, hleaf, hint⟩ := header_setInt T.toNodeLayout page p (show 0 + 4 ≤ sizeofIxPageHdr by decide) (by decide)
  exact ⟨hsize.trans h.size, h.room, hleaf.trans h.isLeaf, (hint 4 (by decide)).trans h.parent, (hint 16 (by decide)).trans h.prevLeaf,
    (hint 20 (by decide)).trans h.nextLeaf, (congrArg _ hpairs).trans h.pairs⟩

theorem Stores.setParent (h : Stores T page n) {p : ℤ} (hp : InInt p) :
    Stores T (setParentPageNo page p) { n with parent := p } := by
  obtain ⟨hsize, hpairs, hleaf, hint⟩ := header_setInt T.toNodeLayout page p (show 4 + 4 ≤ sizeofIxPageHdr by decide) (by decide)
  exact ⟨hsize.trans h.size, h.room, hleaf.trans h.isLeaf, intAt_setInt (by decide) hp, (hint 16 (by decide)).trans h.prevLeaf,
    (hint 20 (by decide)).trans h.nextLeaf, (congrArg _ hpairs).trans h.pairs⟩

theorem Stores.setPrevLeaf (h : Stores T page n) {p : ℤ} (hp : InInt p) :
    Stores T (setPrevLeaf page p) { n with prevLeaf := p } := by
  obtain ⟨hsize, hpairs, hleaf, hint⟩ := header_setInt T.toNodeLayout page p (show 16 + 4 ≤ sizeofIxPageHdr by decide) (by decide)
  exact ⟨hsize.trans h.size, h.room, hleaf.trans h.isLeaf, (hint 4 (by decide)).trans h.parent, intAt_setInt (by decide) hp,
    (hint 20 (by decide)).trans h.nextLeaf, (congrArg _ hpairs).trans h.pairs⟩

theorem Stores.setNextLeaf (h : Stores T page n) {p : ℤ} (hp : InInt p) :
    Stores T (setNextLeaf page p) { n with nextLeaf := p } := by
  obtain ⟨hsize, hpairs, hleaf, hint⟩ := header_setInt T.toNodeLayout page p (show 20 + 4 ≤ sizeofIxPageHdr by decide) (by decide)
  exact ⟨hsize.trans h.size, h.room, hleaf.trans h.isLeaf, (hint 4 (by decide)).trans h.parent, (hint 16 (by decide)).trans h.prevLeaf,
    intAt_setInt (by decide) hp, (congrArg _ hpairs).trans h.pairs⟩

theorem Stores.setIsLeaf (h : Stores T page n) (b : Bool) : Stores T (setIsLeaf page b) { n with isLeaf := b } := by
  have hlen : ([if b then 1 else 0] : Bytes).length = 1 := rfl
  obtain ⟨hsize, hpairs⟩ := pairs_header T.toNodeLayout page
    (show 12 + ([if b then 1 else 0] : Bytes).length ≤ sizeofIxPageHdr by rw [hlen]; decide) (by rw [hlen]; decide)
  refine ⟨hsize.trans h.size, h.room, ?_, ?_, ?_, ?_, (congrArg _ hpairs).trans h.pairs⟩
  · rw [isLeafPage, NodePage.setIsLeaf, cellAt_copyTo (by rw [hlen]; decide), if_pos (by rw [hlen]; decide)]
    cases b <;> rfl
  · rw [← h.parent]
    exact intAt_copyTo (by rw [hlen]; decide) (by rw [hlen]; decide)
  · rw [← h.prevLeaf]
    exact intAt_copyTo (by rw [hlen]; decide) (by rw [hlen]; decide)
  · rw [← h.nextLeaf]
    exact intAt_copyTo (by rw [hlen]; decide) (by rw [hlen]; decide)

/-! ### Writing pairs -/

/-- What does not touch the rest of the header. -/
theorem Stores.of_frame {page' : PageData} (h : Stores T page n) (hframe : Frame T.toNodeLayout page page')
    {prs : List (Key T.keyCols × Rid)} (hsize : getSize page' = prs.length) (hroom : prs.length ≤ T.maxSize)
    (hpairs : (NodePage.pairs T.toNodeLayout page').map readPair = prs.map barePair) : Stores T page' { n with pairs := prs } := by
  have heq := hframe.toNode
  exact ⟨hsize, hroom, (congrArg Node.isLeaf heq).trans h.isLeaf, (congrArg Node.parent heq).trans h.parent,
    (congrArg Node.prevLeaf heq).trans h.prevLeaf, (congrArg Node.nextLeaf heq).trans h.nextLeaf, hpairs⟩

/-- **`insert_pairs`.** -/
theorem Stores.insertPairs (h : Stores T page n) {pos : ℕ} {prs : List (Key T.keyCols × Rid)} {keys rids : Bytes}
    (hkeys : keys.length = prs.length * T.keyLen) (hrids : rids.length = prs.length * sizeofRid)
    (hprs : ((chunks T.keyLen prs.length keys).zip (chunks sizeofRid prs.length rids)).map readPair = prs.map barePair)
    (hrun : n.insertPairs T.maxSize pos prs = some n') :
    ∃ page', insertPairs T.toNodeLayout page pos keys rids prs.length = some page' ∧ Stores T page' n' := by
  unfold Node.insertPairs at hrun
  split at hrun
  · rename_i hbounds
    obtain rfl := Option.some.inj hrun
    obtain ⟨page', hins, hsize, hpairs, hframe⟩ := insertPairs_spec (L := T.toNodeLayout) (k := n.size) (n := prs.length) h.size
      hbounds.1 hbounds.2 hkeys hrids
    have hlen : (n.pairs.take pos ++ prs ++ n.pairs.drop pos).length = n.size + prs.length := by
      have := hbounds.1
      unfold Node.size at this ⊢
      simp only [List.length_append, List.length_take, List.length_drop]
      omega
    refine ⟨page', hins, h.of_frame hframe (by rw [hsize, hlen]) (hlen ▸ hbounds.2) ?_⟩
    rw [hpairs]
    simp only [List.map_append, List.map_take, List.map_drop, h.pairs, hprs]
  · cases hrun

/-- **`insert_pair`.** -/
theorem Stores.insertPair (h : Stores T page n) {pos : ℕ} (hrid : RidOk rid) (hrun : n.insertPair T.maxSize pos key rid = some n') :
    ∃ page', insertPair T.toNodeLayout page pos key.1 rid = some page' ∧ Stores T page' n' := by
  have hkeylen := T.length_key key
  have hk : key.1.length = [(key, rid)].length * T.keyLen := by rw [hkeylen, List.length_singleton, Nat.one_mul]
  have hr : (ridBytes rid).length = [(key, rid)].length * sizeofRid := by rw [length_ridBytes, List.length_singleton, Nat.one_mul]
  refine h.insertPairs hk hr ?_ hrun
  rw [List.length_singleton, chunks_one hkeylen, chunks_one (length_ridBytes rid)]
  simp only [List.zip_cons_cons, List.zip_nil_right, List.map_cons, List.map_nil, readPair, barePair, ridOf_ridBytes hrid]

/-- **`insert`.** -/
theorem Stores.insert (h : Stores T page n) (hrid : RidOk rid) (hrun : n.insert T.maxSize key rid = some n') :
    ∃ page', (insert T.toNodeLayout page key.1 (ridBytes rid)).map (·.1) = some page' ∧ Stores T page' n' ∧
      (n'.size = n.size → page' = page) := by
  rw [Node.insert] at hrun
  rw [NodePage.insert, h.lowerBound, h.hasKeyAt]
  split at hrun
  · obtain rfl := Option.some.inj hrun
    rw [if_pos ‹_›]
    exact ⟨page, rfl, h, fun _ => rfl⟩
  · rw [if_neg ‹_›]
    obtain ⟨page', hins, hstores⟩ := h.insertPair hrid hrun
    refine ⟨page', ?_, hstores, ?_⟩
    · rw [Option.map_map]
      rw [NodePage.insertPair] at hins
      rw [hins]
      rfl
    · intro heq
      unfold Node.insertPair Node.insertPairs at hrun
      split at hrun
      · obtain rfl := Option.some.inj hrun
        unfold Node.size at heq
        simp only [List.length_append, List.length_take, List.length_drop, List.length_singleton] at heq
        omega
      · cases hrun

/-- **`remove`.** -/
theorem Stores.remove (h : Stores T page n) (hrun : n.remove key = some n') :
    ∃ page', (remove T.toNodeLayout page key.1).map (·.1) = some page' ∧ Stores T page' n' ∧ (n'.size = n.size → page' = page) := by
  rw [Node.remove] at hrun
  rw [NodePage.remove, h.lowerBound, h.hasKeyAt]
  split at hrun
  · rw [if_pos ‹_›]
    unfold Node.erasePair at hrun
    split at hrun
    · rename_i hpos
      obtain rfl := Option.some.inj hrun
      obtain ⟨page', hrun, hsize, hpairs, hframe⟩ := erasePair_spec (L := T.toNodeLayout) h.size h.room hpos
      have hlen : (n.pairs.eraseIdx (n.lowerBound key)).length = n.size - 1 := List.length_eraseIdx_of_lt hpos
      refine ⟨page', by rw [hrun]; rfl, h.of_frame hframe (by rw [hsize, hlen]) (by rw [hlen]; exact (Nat.sub_le ..).trans h.room) ?_,
        ?_⟩
      · rw [hpairs, ← List.eraseIdx_map, h.pairs, List.eraseIdx_map]
      · intro heq
        rw [Node.size, hlen] at heq
        omega
    · cases hrun
  · obtain rfl := Option.some.inj hrun
    rw [if_neg ‹_›]
    exact ⟨page, rfl, h, fun _ => rfl⟩

/-- `set_size` keeps the first pairs. -/
theorem Stores.setSize (h : Stores T page n) {k : ℕ} (hk : k ≤ n.size) :
    Stores T (setSize page k) { n with pairs := n.pairs.take k } := by
  have hsize : getSize (NodePage.setSize page k) = k := getSize_setSize (L := T.toNodeLayout) page (hk.trans h.room)
  have hlen : (n.pairs.take k).length = k := List.length_take_of_le hk
  refine h.of_frame (frame_setSize page k) (by rw [hsize, hlen]) (by rw [hlen]; exact hk.trans h.room) ?_
  obtain ⟨m, hm⟩ := Nat.exists_eq_add_of_le hk
  rw [NodePage.pairs, hsize, Int.toNat_natCast, pairsAt_setSize, List.map_take, ← h.pairs, ← List.map_take,
    pairs_eq_append (show getSize page = (k + m : ℕ) by rw [h.size, hm]), List.take_left' (length_pairsAt ..)]

/-- The upper pairs, as their bytes are copied by `split`. -/
theorem Stores.upper (h : Stores T page n) {pos m : ℕ} (hm : pos + m = n.size) :
    ((chunks T.keyLen m (cellsAt page (T.keyOffset pos) (m * T.keyLen))).zip
      (chunks sizeofRid m (cellsAt page (T.ridOffset pos) (m * sizeofRid)))).map readPair = (n.pairs.drop pos).map barePair := by
  rw [List.map_drop, ← h.pairs, ← List.map_drop, pairs_eq_append (show getSize page = (pos + m : ℕ) by rw [h.size, hm]),
    List.drop_left' (length_pairsAt ..), pairsAt, items_eq_chunks, items_eq_chunks]

/-- `memcpy` to a key. -/
theorem Stores.setKey (h : Stores T page n) (hi : i < n.size) :
    Stores T (setKey T.toNodeLayout page i key.1) (n.setKey i key) := by
  have hkeylen := T.length_key key
  have hroom := h.room
  have hfits := T.fits'
  obtain ⟨m, hm⟩ := Nat.exists_eq_add_of_lt hi
  obtain ⟨hK, hlow, hR⟩ := arrays T.toNodeLayout (show i + 1 ≤ T.maxSize by omega)
  rw [Nat.one_mul] at hK hR
  -- the rid of the slot is copied back to where it is
  have hback : NodePage.setKey T.toNodeLayout page i key.1 = copyTo (copyTo page (T.keyOffset i) key.1) (T.ridOffset i)
      (getRid T.toNodeLayout page i) := by
    have hsame : cellsAt (copyTo page (T.keyOffset i) key.1) (T.ridOffset i) sizeofRid = getRid T.toNodeLayout page i :=
      cellsAt_copyTo_of_disjoint (by omega) (Or.inl (by omega))
    rw [← hsame, NodePage.setKey, List.take_of_length_le hkeylen.le]
    exact (moveTo_self ..).symm
  obtain ⟨hwritten, hother, hframe⟩ := write_spec page i (L := T.toNodeLayout) (show i + 1 ≤ T.maxSize by omega)
    (show key.1.length = 1 * T.keyLen by rw [hkeylen, Nat.one_mul])
    (show (getRid T.toNodeLayout page i).length = 1 * sizeofRid by rw [getRid, length_cellsAt, Nat.one_mul])
  rw [← hback] at hwritten hother hframe
  have hkeyOffset : sizeofIxPageHdr ≤ T.keyOffset i := Nat.le_add_right ..
  have hsize : getSize (NodePage.setKey T.toNodeLayout page i key.1) = getSize page := by
    rw [NodePage.setKey, List.take_of_length_le hkeylen.le]
    exact intAt_copyTo (by omega) (Or.inr (le_trans (by decide) hkeyOffset))
  have hget : n.pairs[i]? = some n.pairs[i] := List.getElem?_eq_getElem hi
  obtain ⟨e, he, -, hrid⟩ := h.get hi
  have hpairs := h.pairs
  have hparts : NodePage.pairs T.toNodeLayout page = pairsAt T.toNodeLayout page 0 i ++ (pairsAt T.toNodeLayout page i 1 ++
      pairsAt T.toNodeLayout page (i + 1) m) := by
    rw [← pairsAt_add, pairs_eq_append (show getSize page = (i + (1 + m) : ℕ) by rw [h.size, hm, Nat.add_assoc, Nat.add_comm 1 m])]
  have hparts' : NodePage.pairs T.toNodeLayout (NodePage.setKey T.toNodeLayout page i key.1) =
      pairsAt T.toNodeLayout page 0 i ++ ([(key.1, getRid T.toNodeLayout page i)] ++ pairsAt T.toNodeLayout page (i + 1) m) := by
    rw [pairs_eq_append (show getSize (NodePage.setKey T.toNodeLayout page i key.1) = (i + (1 + m) : ℕ) by
      rw [hsize, h.size, hm, Nat.add_assoc, Nat.add_comm 1 m]), pairsAt_add, hother 0 i (Or.inl (by omega)), hwritten,
      hother (i + 1) m (Or.inr (by omega)), chunks_one hkeylen, chunks_one (by rw [getRid, length_cellsAt])]
    rfl
  have hlen : (n.pairs.modify i fun e => (key, e.2)).length = n.size := by rw [List.length_modify]; rfl
  refine h.of_frame hframe (by rw [hsize, h.size, hlen]) (hlen ▸ hroom) ?_
  have hleft : (pairsAt T.toNodeLayout page 0 i).map readPair = (n.pairs.take i).map barePair := by
    rw [List.map_take, ← hpairs, ← List.map_take, hparts, List.take_left' (length_pairsAt ..)]
  have hright : (pairsAt T.toNodeLayout page (i + 1) m).map readPair = (n.pairs.drop (i + 1)).map barePair := by
    rw [List.map_drop, ← hpairs, ← List.map_drop, hparts, ← List.append_assoc, List.drop_left' (by simp)]
  rw [hparts', List.modify_eq_take_cons_drop hi, List.map_append, List.map_append, hleft, hright, List.map_append]
  obtain rfl := Option.some.inj (hget.symm.trans he)
  simp only [List.map_cons, List.map_nil, List.cons_append, List.nil_append, readPair, barePair, hrid]

/-! ### New pages -/

/-- A new page has no pairs. -/
theorem stores_zeros : Stores T zeros ⟨false, 0, 0, 0, []⟩ := by
  have hcell : ∀ i, cellAt zeros i = 0 := fun i => by
    unfold cellAt
    split <;> rfl
  have hint : ∀ offset, intAt zeros offset = 0 := fun offset => by
    have hcells : cellsAt zeros offset 4 = [0, 0, 0, 0] := by
      simp only [cellsAt, hcell]
      rfl
    rw [intAt, hcells]
    decide
  refine ⟨hint _, Nat.zero_le _, ?_, hint _, hint _, hint _, ?_⟩
  · rw [isLeafPage, hcell]
    rfl
  · rw [pairs, getSize, hint]
    rfl

/-- A leaf that `create_index` writes. -/
theorem stores_emptyLeaf {neighbour : ℤ} (hn : InInt neighbour) :
    Stores T (Paged.emptyLeaf neighbour) ⟨true, IX_NO_PAGE, neighbour, neighbour, []⟩ := by
  have hno : InInt IX_NO_PAGE := ⟨by decide, by decide⟩
  have hfree : Stores T (setInt zeros 0 IX_NO_PAGE) ⟨false, 0, 0, 0, []⟩ := stores_zeros.setFree
  exact ((((hfree.setParent hno).setSize (Nat.zero_le 0)).setIsLeaf true).setPrevLeaf hn).setNextLeaf hn

end NodePage

end Rmdb.Index
