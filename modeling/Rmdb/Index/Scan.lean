import Rmdb.Index.Map
import Rmdb.System.Meta
import Rmdb.Lib.Cursor

/-!
# Scanning the leaves

`lower_bound` and `upper_bound` of the tree give a position in the leaves: the slot of
the first key not below (above) the given one, or the end of the last leaf. Both pass
over leaves without a suitable key, empty ones among them. `IxScan` walks from one
position to another along the chain of leaves. Its `next` goes to slot `0` of the next
leaf when a leaf is used up, whether or not that leaf has an entry there: `delete_entry`
leaves an emptied leaf in the chain, and a scan that steps onto one that is not the last
leaf stands at a slot without an entry.

The main result, `Inv.scan_cases`, says exactly what a scan between two keys does: it
visits the entries between them, unless a key lies strictly beyond both (`Crossed`), or a
leaf that ends between them is followed by an empty leaf that is not the last (`Gap`);
then it runs into `IndexEntryNotFoundError`.
-/

namespace Rmdb.Index

open Lib

/-- `Iid`: a slot of a leaf. -/
structure Iid where
  /-- `page_no`. -/
  pageNo : ℤ
  /-- `slot_no`. -/
  slotNo : ℕ
deriving DecidableEq, Repr

namespace IxIndexHandle

variable {K : Type}

/-- `leaf_end`. -/
def leafEnd (ih : IxIndexHandle K) : Option Iid := do
  let node ← ih.fetchNode ih.lastLeaf
  some ⟨ih.lastLeaf, node.size⟩

/-- The loop of `lower_bound` and `upper_bound`: on to the next leaf while the position is past the slots. -/
def skipLeaves (ih : IxIndexHandle K) : ℕ → ℤ → ℕ → Option Iid
  | 0, _, _ => none
  | bound + 1, pageNo, pos => do
    let leaf ← ih.fetchNode pageNo
    if pos = leaf.size ∧ pageNo ≠ ih.lastLeaf then skipLeaves ih bound leaf.nextLeaf 0 else some ⟨pageNo, pos⟩

/-- `get_rid`. -/
def getRid (ih : IxIndexHandle K) (iid : Iid) : Except RMDBError Rid :=
  match ih.fetchNode iid.pageNo with
  | none => .error .assertion
  | some node =>
    match node.pairs[iid.slotNo]? with
    | none => .error .indexEntryNotFound
    | some e => .ok e.2

/-- `IxScan::next` of a scan up to `last`. -/
def ixNext (ih : IxIndexHandle K) (last iid : Iid) : Except RMDBError Iid :=
  match ih.fetchNode iid.pageNo with
  | none => .error .assertion
  | some node =>
    if iid ≠ last ∧ node.isLeaf ∧ iid.slotNo < node.size then
      if iid.pageNo ≠ ih.lastLeaf ∧ iid.slotNo + 1 = node.size then .ok ⟨node.nextLeaf, 0⟩
      else .ok ⟨iid.pageNo, iid.slotNo + 1⟩
    else .error .assertion

/-- `IxScan` as a cursor. -/
def ixScan (ih : IxIndexHandle K) (last : Iid) : Cursor Iid RMDBError Rid where
  isEnd iid := iid = last
  read := ih.getRid
  next := ih.ixNext last

section Ordered

variable [LinearOrder K]

/-- `lower_bound` and `upper_bound`: they differ in the search inside the leaf. -/
def boundBy (ih : IxIndexHandle K) (search : Node K → ℕ) (key : K) : Option Iid := do
  match ← ih.findLeafPage key false with
  | none => ih.leafEnd
  | some leaf => do
    let node ← ih.fetchNode leaf
    ih.skipLeaves ih.fd2pageno.toNat leaf (search node)

/-- `lower_bound`. -/
def lowerBound (ih : IxIndexHandle K) (key : K) : Option Iid := ih.boundBy (·.lowerBound key) key

/-- `upper_bound`. -/
def upperBound (ih : IxIndexHandle K) (key : K) : Option Iid := ih.boundBy (·.upperBound key) key

end Ordered

end IxIndexHandle

/-! ### Positions -/

variable {K : Type}

@[simp] theorem contents_append (A B : List (Leaf K)) : contents (A ++ B) = contents A ++ contents B := by
  simp [contents]

@[simp] theorem contents_cons (l : Leaf K) (B : List (Leaf K)) : contents (l :: B) = l.entries ++ contents B := by
  simp [contents]

@[simp] theorem contents_nil : contents ([] : List (Leaf K)) = [] := rfl

/-- The position `iid` in the leaf `l`, at an entry or at the end of the last leaf. -/
structure At (lv A : List (Leaf K)) (l : Leaf K) (B : List (Leaf K)) (iid : Iid) : Prop where
  split : lv = A ++ l :: B
  page : iid.pageNo = l.page
  slot : iid.slotNo ≤ l.entries.length
  settled : iid.slotNo < l.entries.length ∨ B = []

/-- The position `iid` is behind the entries `X`. -/
def Behind (lv : List (Leaf K)) (iid : Iid) (X : List (K × Rid)) : Prop :=
  ∃ A l B, At lv A l B iid ∧ X = contents A ++ l.entries.take iid.slotNo

/-- The entry is the last of a leaf, and behind it comes an empty leaf that is not the last one. -/
def GapAfter (lv : List (Leaf K)) (e : K × Rid) : Prop :=
  ∃ A a b B, lv = A ++ a :: b :: B ∧ a.entries.getLast? = some e ∧ b.entries = [] ∧ B ≠ []

theorem GapAfter.mem {lv : List (Leaf K)} {e : K × Rid} (h : GapAfter lv e) : e ∈ contents lv := by
  obtain ⟨A, a, b, B, rfl, he, -, -⟩ := h
  simp [List.mem_of_getLast? he]

/-- Leaves of distinct pages are split by a page in one way. -/
theorem split_unique : ∀ {A A' B B' : List (Leaf K)} {l l' : Leaf K}, A ++ l :: B = A' ++ l' :: B' →
    ((A ++ l :: B).map (·.page)).Nodup → l.page = l'.page → A = A' ∧ l = l' ∧ B = B'
  | [], [], _, _, _, _, h, _, _ => by
    obtain ⟨rfl, rfl⟩ := List.cons.inj h
    exact ⟨rfl, rfl, rfl⟩
  | [], a :: A', B, B', l, l', h, hnd, hp => by
    obtain ⟨rfl, rfl⟩ := List.cons.inj h
    simp only [List.nil_append, List.map_cons, List.nodup_cons, List.mem_map] at hnd
    exact absurd ⟨l', by simp, hp.symm⟩ hnd.1
  | a :: A, [], B, B', l, l', h, hnd, hp => by
    obtain ⟨rfl, rfl⟩ := List.cons.inj h
    simp only [List.cons_append, List.map_cons, List.nodup_cons, List.mem_map] at hnd
    exact absurd ⟨l, by simp, hp⟩ hnd.1
  | a :: A, a' :: A', B, B', l, l', h, hnd, hp => by
    obtain ⟨rfl, ht⟩ := List.cons.inj h
    simp only [List.cons_append, List.map_cons, List.nodup_cons] at hnd
    obtain ⟨rfl, rfl, rfl⟩ := split_unique ht hnd.2 hp
    exact ⟨rfl, rfl, rfl⟩

theorem exists_of_split_lt {A A' B B' : List (Leaf K)} {l l' : Leaf K} (h : A ++ l :: B = A' ++ l' :: B')
    (hlt : A.length < A'.length) : ∃ C, A' = A ++ l :: C := by
  rcases List.append_eq_append_iff.mp h with ⟨D, hD, hD'⟩ | ⟨D, hD, -⟩
  · cases D with
    | nil => simp [hD] at hlt
    | cons d D =>
      obtain ⟨rfl, -⟩ := List.cons.inj hD'
      exact ⟨D, hD⟩
  · rw [hD, List.length_append] at hlt
    omega

/-- A position behind fewer leaves is behind fewer entries. -/
theorem At.length_lt {lv A B A' B' : List (Leaf K)} {l l' : Leaf K} {i i' : Iid} (h : At lv A l B i)
    (h' : At lv A' l' B' i') (hlt : A.length < A'.length) :
    (contents A ++ l.entries.take i.slotNo).length < (contents A' ++ l'.entries.take i'.slotNo).length := by
  obtain ⟨C, hC⟩ := exists_of_split_lt (h.split.symm.trans h'.split) hlt
  have hB : B ≠ [] := by
    rintro rfl
    have := congrArg List.length (h.split.symm.trans h'.split)
    simp at this
    omega
  have hs := h.settled.resolve_right hB
  rw [hC]
  simp only [contents_append, contents_cons, List.length_append, List.length_take]
  omega

/-- Positions are the same exactly when as many entries are before them. -/
theorem Behind.eq_iff {lv : List (Leaf K)} {i i' : Iid} {X X' : List (K × Rid)} (hnd : (lv.map (·.page)).Nodup)
    (h : Behind lv i X) (h' : Behind lv i' X') : i = i' ↔ X.length = X'.length := by
  obtain ⟨A, l, B, hat, rfl⟩ := h
  obtain ⟨A', l', B', hat', rfl⟩ := h'
  constructor
  · rintro rfl
    obtain ⟨rfl, rfl, rfl⟩ := split_unique (hat.split.symm.trans hat'.split) (hat.split ▸ hnd)
      (hat.page.symm.trans hat'.page)
    rfl
  · intro hlen
    rcases lt_trichotomy A.length A'.length with hA | hA | hA
    · exact absurd hlen (hat.length_lt hat' hA).ne
    · obtain ⟨rfl, hl⟩ := List.append_inj (hat.split.symm.trans hat'.split) hA
      obtain ⟨rfl, rfl⟩ := List.cons.inj hl
      have h1 := hat.slot
      have h2 := hat'.slot
      simp only [List.length_append, List.length_take] at hlen
      have hpage := hat.page.trans hat'.page.symm
      have hslot : i.slotNo = i'.slotNo := by omega
      cases i
      cases i'
      simp_all
    · exact absurd hlen (hat'.length_lt hat hA).ne'

theorem Behind.append {lv : List (Leaf K)} {i : Iid} {X : List (K × Rid)} (h : Behind lv i X) :
    ∃ Y, contents lv = X ++ Y := by
  obtain ⟨A, l, B, hat, rfl⟩ := h
  refine ⟨l.entries.drop i.slotNo ++ contents B, ?_⟩
  rw [hat.split, contents_append, contents_cons, List.append_assoc, ← List.append_assoc (List.take _ _),
    List.take_append_drop]

/-- The position is at the entry `e`. -/
structure AtEntry (lv A : List (Leaf K)) (l : Leaf K) (B : List (Leaf K)) (i : Iid) (e : K × Rid) : Prop
    extends At lv A l B i where
  entry : l.entries[i.slotNo]? = some e

section AtEntry

variable {lv A B : List (Leaf K)} {l b : Leaf K} {i : Iid} {X Y : List (K × Rid)} {e : K × Rid}

/-- Behind `X` the scan is at the entry that follows. -/
theorem atEntry_of_behind (hi : Behind lv i X) (hc : contents lv = X ++ e :: Y) :
    ∃ A l B, AtEntry lv A l B i e ∧ X = contents A ++ l.entries.take i.slotNo := by
  obtain ⟨A, l, B, hat, rfl⟩ := hi
  have hdrop : l.entries.drop i.slotNo ++ contents B = e :: Y := by
    rw [hat.split, contents_append, contents_cons, List.append_assoc] at hc
    replace hc := List.append_cancel_left hc
    rw [← List.take_append_drop i.slotNo l.entries, List.append_assoc] at hc
    rw [List.take_append_drop] at hc
    exact List.append_cancel_left hc
  have hlt : i.slotNo < l.entries.length := by
    rcases hat.settled with hlt | rfl
    · exact hlt
    · by_contra hge
      rw [List.drop_of_length_le (by omega)] at hdrop
      cases hdrop
  refine ⟨A, l, B, ⟨hat, ?_⟩, rfl⟩
  have := congrArg List.head? hdrop
  rw [List.head?_append, List.head?_drop, List.getElem?_eq_getElem hlt] at this
  rw [List.getElem?_eq_getElem hlt]
  simpa using this

theorem AtEntry.lt (hr : AtEntry lv A l B i e) : i.slotNo < l.entries.length :=
  (List.getElem?_eq_some_iff.mp hr.entry).1

theorem AtEntry.take_succ (hr : AtEntry lv A l B i e) :
    l.entries.take (i.slotNo + 1) = l.entries.take i.slotNo ++ [e] := by
  rw [List.take_add_one, hr.entry]
  rfl

theorem AtEntry.getLast (hr : AtEntry lv A l B i e) (hend : i.slotNo + 1 = l.entries.length) :
    l.entries.getLast? = some e := by
  rw [List.getLast?_eq_getElem?, ← hend]
  exact hr.entry

/-- From the end of a leaf to the start of the next. -/
theorem AtEntry.behind_next (hr : AtEntry lv A l (b :: B) i e) (hend : i.slotNo + 1 = l.entries.length)
    (hgap : ¬ (b.entries = [] ∧ B ≠ [])) :
    Behind lv ⟨b.page, 0⟩ (contents A ++ l.entries.take i.slotNo ++ [e]) := by
  have hsplit : lv = (A ++ [l]) ++ b :: B := by
    rw [hr.split]
    simp
  refine ⟨A ++ [l], b, B, ⟨hsplit, rfl, Nat.zero_le _, ?_⟩, ?_⟩
  · by_cases hB : B = []
    · exact Or.inr hB
    · exact Or.inl (List.length_pos_iff.mpr fun hb => hgap ⟨hb, hB⟩)
  · have hl : l.entries.take i.slotNo ++ [e] = l.entries := by rw [← hr.take_succ, hend, List.take_length]
    rw [contents_append, contents_cons, contents_nil, List.take_zero, List.append_nil, List.append_nil,
      List.append_assoc, hl]

/-- From a slot to the next. -/
theorem AtEntry.behind_within (hr : AtEntry lv A l B i e) (hin : ¬ (B ≠ [] ∧ i.slotNo + 1 = l.entries.length)) :
    Behind lv ⟨i.pageNo, i.slotNo + 1⟩ (contents A ++ l.entries.take i.slotNo ++ [e]) := by
  refine ⟨A, l, B, ⟨hr.split, hr.page, hr.lt, ?_⟩, ?_⟩
  · by_cases hB : B = []
    · exact Or.inr hB
    · refine Or.inl (lt_of_le_of_ne hr.lt ?_)
      intro he
      exact hin ⟨hB, he⟩
  · rw [List.append_assoc, ← hr.take_succ]

end AtEntry

namespace IxIndexHandle

section Ordered

variable [LinearOrder K] {ih : IxIndexHandle K} {lv : List (Leaf K)} {lvls : List (List (Inner K))}

/-- The keys of the leaves increase from left to right. -/
theorem Inv.sorted_contents (h : ih.Inv lv lvls) : SortedKeys (contents lv) := by
  refine List.pairwise_flatMap.mpr ⟨fun l hl => (h.leaves l hl).sorted, ?_⟩
  have hrange := h.keys.ranges
  have hlow := h.keys.lower
  cases lv with
  | nil => exact List.Pairwise.nil
  | cons l lv =>
    obtain ⟨h1, h2⟩ := List.pairwise_cons.mp hrange
    refine List.pairwise_cons.mpr ⟨fun b hb x hx y hy => ?_, h2.imp_of_mem fun {a b} _ hb hab x hx y hy => ?_⟩
    · exact ((h1 b hb).2 x hx).trans_le (hlow b hb y hy)
    · exact (hab.2 x hx).trans_le (hlow b hb y hy)

theorem Inv.nodup_pages (h : ih.Inv lv lvls) : (lv.map (·.page)).Nodup :=
  (List.nodup_append.mp h.pages.nodup).1

/-- The last leaf is the one with nothing behind it. -/
theorem Inv.eq_lastLeaf_iff (h : ih.Inv lv lvls) {A B : List (Leaf K)} {l : Leaf K} (hlv : lv = A ++ l :: B) :
    l.page = ih.lastLeaf ↔ B = [] := by
  have hlast := h.last
  have hnd := h.nodup_pages
  rw [hlv, List.map_append, List.map_cons] at hlast hnd
  constructor
  · intro hp
    by_contra hB
    obtain ⟨b, hb⟩ := List.exists_mem_of_ne_nil _ hB
    rw [List.getLast?_append_of_ne_nil _ (by simp), List.getLast?_cons_of_ne_nil (by simpa using hB)] at hlast
    have hmem : ih.lastLeaf ∈ B.map (·.page) := List.mem_of_getLast? hlast
    rw [← hp] at hmem
    exact (List.nodup_cons.mp (List.nodup_append.mp hnd).2.1).1 hmem
  · rintro rfl
    simpa using hlast

/-- The next leaf. -/
theorem Inv.next_eq (h : ih.Inv lv lvls) {A B : List (Leaf K)} {l b : Leaf K} (hlv : lv = A ++ l :: b :: B) {x : Node K}
    (hx : ih.pages l.page = some x) : x.nextLeaf = b.page := by
  have hch := h.chain
  rw [hlv, List.map_append, List.map_cons] at hch
  exact hch.nextLeaf_eq hx

/-- There are more pages than leaves and inner nodes. -/
theorem Inv.count_lt (h : ih.Inv lv lvls) : lv.length + (upPages lvls).length < ih.fd2pageno.toNat := by
  have hne : lv ≠ [] := fun hnil => by
    have hfirst := h.first
    rw [hnil] at hfirst
    cases hfirst
  have hcount := h.pages.length_lt (by simpa using fun hnil _ => hne hnil)
  rwa [List.length_append, List.length_map] at hcount

/-- There are not more entries than slots. -/
theorem Inv.length_contents_le (h : ih.Inv lv lvls) : (contents lv).length ≤ ih.fd2pageno.toNat * ih.maxSize := by
  have hcount := h.count_lt
  have hsum : ∀ l : List (Leaf K), (∀ x ∈ l, x.entries.length ≤ ih.maxSize) → (contents l).length ≤ l.length * ih.maxSize := by
    intro l hl
    induction l with
    | nil => exact Nat.zero_le _
    | cons x l hind =>
      have hx := hl x List.mem_cons_self
      have hrest := hind fun y hy => hl y (List.mem_cons_of_mem _ hy)
      rw [contents_cons, List.length_append, List.length_cons, Nat.succ_mul]
      omega
  exact (hsum lv fun x hx => (h.leaves x hx).size.le).trans (Nat.mul_le_mul_right _ (by omega))

/-! ### Where the searches land -/

theorem Inv.skipLeaves_spec (h : ih.Inv lv lvls) : ∀ {B A : List (Leaf K)} {l : Leaf K} {s bound : ℕ},
    lv = A ++ l :: B → s ≤ l.entries.length → B.length < bound →
    ∃ i, ih.skipLeaves bound l.page s = some i ∧ Behind lv i (contents A ++ l.entries.take s)
  | B, A, l, s, 0, _, _, hb => absurd hb (Nat.not_lt_zero _)
  | B, A, l, s, bound + 1, hlv, hs, hb => by
    obtain ⟨x, hx, -, hpairs⟩ := (h.leaves l (by rw [hlv]; simp)).node
    have hlast := h.eq_lastLeaf_iff hlv
    simp only [skipLeaves, fetchNode, hx, Option.bind_eq_bind, Option.bind_some, Node.size, hpairs]
    by_cases hskip : s = l.entries.length ∧ l.page ≠ ih.lastLeaf
    · rw [if_pos hskip]
      cases B with
      | nil => exact absurd (hlast.mpr rfl) hskip.2
      | cons b B =>
        rw [h.next_eq hlv hx]
        have hlv' : lv = (A ++ [l]) ++ b :: B := by rw [hlv]; simp
        obtain ⟨i, hi, hbehind⟩ := h.skipLeaves_spec hlv' (Nat.zero_le _) (Nat.lt_of_succ_lt_succ hb)
        refine ⟨i, hi, ?_⟩
        rw [hskip.1, List.take_length]
        simpa using hbehind
    · rw [if_neg hskip]
      refine ⟨_, rfl, A, l, B, ⟨hlv, rfl, hs, ?_⟩, rfl⟩
      by_cases hB : B = []
      · exact Or.inr hB
      · exact Or.inl (hs.lt_of_ne fun hs' => hskip ⟨hs', fun hp => hB (hlast.mp hp)⟩)

/-- Both searches: the entries before the position satisfy `q`, those from it on do not. -/
theorem Inv.boundBy_spec (h : ih.Inv lv lvls) {key : K} {q : K → Prop} [DecidablePred q] {search : Node K → ℕ}
    (hlt : ∀ k, k < key → q k) (hgt : ∀ k, key < k → ¬ q k) (hmono : ∀ a b, a < b → q b → q a)
    (hsearch : ∀ (n : Node K) (E₁ E₂ : List (K × Rid)), n.pairs = E₁ ++ E₂ → (∀ e ∈ E₁, q e.1) →
      (∀ e ∈ E₂, ¬ q e.1) → search n = E₁.length) :
    ∃ i X Y, ih.boundBy search key = some i ∧ Behind lv i X ∧ contents lv = X ++ Y ∧ (∀ e ∈ X, q e.1) ∧
      ∀ e ∈ Y, ¬ q e.1 := by
  obtain ⟨A, l, B, hin, hfind⟩ := findLeafPage_eq h key
  have hl := h.leaves l (by rw [hin.split]; simp)
  obtain ⟨x, hx, -, hpairs⟩ := hl.node
  obtain ⟨E₁, E₂, hE, hE₁, hE₂⟩ := hl.sorted.split q hmono
  have hpos : search x = E₁.length := hsearch x E₁ E₂ (hpairs.trans hE) hE₁ hE₂
  have hbound : B.length < ih.fd2pageno.toNat := by
    have hpg := h.pages.length_lt (by rw [hin.split]; simp)
    rw [hin.split] at hpg
    simp only [List.length_append, List.length_map, List.length_cons] at hpg
    omega
  obtain ⟨i, hi, hbehind⟩ := h.skipLeaves_spec hin.split (s := E₁.length) (by rw [hE]; simp) hbound
  have htake : l.entries.take E₁.length = E₁ := by rw [hE]; simp
  rw [htake] at hbehind
  refine ⟨i, contents A ++ E₁, E₂ ++ contents B, ?_, hbehind, ?_, ?_, ?_⟩
  · unfold boundBy
    simp only [hfind, Option.bind_eq_bind, Option.bind_some, fetchNode, hx, hpos, hi]
  · rw [hin.split, contents_append, contents_cons, hE]
    simp
  · intro e he
    rcases List.mem_append.mp he with he | he
    · obtain ⟨a, ha, hea⟩ := List.mem_flatMap.mp he
      have hrange := h.keys.ranges
      rw [hin.split] at hrange
      have hal := ((List.pairwise_append.mp hrange).2.2 a ha l List.mem_cons_self).2 e hea
      exact hlt _ (hal.trans_le (hin.lower (List.ne_nil_of_mem ha)))
    · exact hE₁ e he
  · intro e he
    rcases List.mem_append.mp he with he | he
    · exact hE₂ e he
    · obtain ⟨b, hb, heb⟩ := List.mem_flatMap.mp he
      have hmem : b ∈ lv.tail := by
        rw [hin.split]
        cases A with
        | nil => exact hb
        | cons a A => simp [hb]
      exact hgt _ ((hin.upper b hb).trans_le (h.keys.lower b hmem e heb))

/-- **`lower_bound`** stands behind the keys below the given one. -/
theorem Inv.lowerBound_spec (h : ih.Inv lv lvls) (key : K) :
    ∃ i X Y, ih.lowerBound key = some i ∧ Behind lv i X ∧ contents lv = X ++ Y ∧ (∀ e ∈ X, e.1 < key) ∧
      ∀ e ∈ Y, ¬ e.1 < key :=
  h.boundBy_spec (fun _ hk => hk) (fun _ hk => hk.le.not_gt) (fun _ _ hab hb => hab.trans hb)
    fun _ _ _ hn h₁ h₂ => Node.lowerBound_eq hn h₁ fun b hb => not_lt.mp (h₂ b hb)

/-- **`upper_bound`** stands behind the keys not above the given one. -/
theorem Inv.upperBound_spec (h : ih.Inv lv lvls) (key : K) :
    ∃ i X Y, ih.upperBound key = some i ∧ Behind lv i X ∧ contents lv = X ++ Y ∧ (∀ e ∈ X, e.1 ≤ key) ∧
      ∀ e ∈ Y, ¬ e.1 ≤ key :=
  h.boundBy_spec (fun _ hk => hk.le) (fun _ hk => hk.not_ge) (fun _ _ hab hb => hab.le.trans hb)
    fun _ _ _ hn h₁ h₂ => Node.upperBound_eq hn h₁ fun b hb => not_le.mp (h₂ b hb)

/-! ### One step of a scan -/

/-- An entry is in one leaf. -/
theorem Inv.split_entry (h : ih.Inv lv lvls) {A A' B B' : List (Leaf K)} {l l' : Leaf K} {e : K × Rid}
    (hlv : lv = A ++ l :: B) (hlv' : lv = A' ++ l' :: B') (he : e ∈ l.entries) (he' : e ∈ l'.entries) :
    A = A' ∧ l = l' ∧ B = B' := by
  -- a leaf further left would hold the entry twice
  have hno : ∀ {A A' B B' : List (Leaf K)} {l l' : Leaf K}, lv = A ++ l :: B → lv = A' ++ l' :: B' → e ∈ l.entries →
      e ∈ l'.entries → ¬ A.length < A'.length := by
    intro A A' B B' l l' hlv hlv' he he' hlt
    obtain ⟨C, rfl⟩ := exists_of_split_lt (hlv.symm.trans hlv') hlt
    have hs := h.sorted_contents
    rw [hlv', contents_append] at hs
    exact lt_irrefl _ ((SortedKeys.append_iff.mp hs).2.2 e (by simp [he]) e (by simp [he']))
  have hlen : A.length = A'.length := by
    have h1 := hno hlv hlv' he he'
    have h2 := hno hlv' hlv he' he
    omega
  obtain ⟨rfl, hl⟩ := List.append_inj (hlv.symm.trans hlv') hlen
  obtain ⟨rfl, rfl⟩ := List.cons.inj hl
  exact ⟨rfl, rfl, rfl⟩

/-- At the end of the leaves there is no entry. -/
theorem Inv.getRid_end (h : ih.Inv lv lvls) {i : Iid} (hi : Behind lv i (contents lv)) :
    ih.getRid i = .error .indexEntryNotFound := by
  obtain ⟨A, l, B, hat, hX⟩ := hi
  obtain ⟨x, hx, -, hpairs⟩ := (h.leaves l (by rw [hat.split]; simp)).node
  have hlen := congrArg List.length hX
  have hslot := hat.slot
  rw [hat.split] at hlen
  simp only [contents_append, contents_cons, List.length_append, List.length_take] at hlen
  have hge : l.entries.length ≤ i.slotNo := by omega
  unfold getRid fetchNode
  rw [hat.page]
  simp only [hx, hpairs, List.getElem?_eq_none hge]

section AtEntry

variable {A B : List (Leaf K)} {l b : Leaf K} {i last : Iid} {e : K × Rid} {x : Node K}

/-- The entry is read. -/
theorem Inv.getRid_atEntry (h : ih.Inv lv lvls) (hr : AtEntry lv A l B i e) : ih.getRid i = .ok e.2 := by
  obtain ⟨x, hx, -, hpairs⟩ := (h.leaves l (by rw [hr.split]; simp)).node
  unfold getRid fetchNode
  rw [hr.page]
  simp only [hx, hpairs, hr.entry]

/-- Where `next` goes: to the next leaf at the end of a leaf that is not the last, and to the next slot elsewhere. -/
theorem Inv.ixNext_atEntry (h : ih.Inv lv lvls) (hr : AtEntry lv A l B i e) (hx : ih.pages l.page = some x)
    (hne : i ≠ last) :
    ih.ixNext last i = if B ≠ [] ∧ i.slotNo + 1 = l.entries.length then .ok ⟨x.nextLeaf, 0⟩
      else .ok ⟨i.pageNo, i.slotNo + 1⟩ := by
  obtain ⟨y, hy, hleaf, hpairs⟩ := (h.leaves l (by rw [hr.split]; simp)).node
  obtain rfl : y = x := Option.some.inj (hy.symm.trans hx)
  unfold ixNext fetchNode
  rw [hr.page]
  simp only [hx, Node.size, hpairs, hleaf, hr.lt, hne, ne_eq, not_false_eq_true, and_self, if_true,
    h.eq_lastLeaf_iff hr.split]

/-- At the end of a leaf the next one decides whether there is a gap. -/
theorem Inv.gapAfter_iff (h : ih.Inv lv lvls) (hr : AtEntry lv A l (b :: B) i e)
    (hend : i.slotNo + 1 = l.entries.length) : GapAfter lv e ↔ b.entries = [] ∧ B ≠ [] := by
  constructor
  · rintro ⟨A', a, b', B', hsplit, hlast, hb, hB⟩
    obtain ⟨-, -, hBB⟩ := h.split_entry hr.split hsplit (List.mem_of_getElem? hr.entry) (List.mem_of_getLast? hlast)
    obtain ⟨rfl, rfl⟩ := List.cons.inj hBB
    exact ⟨hb, hB⟩
  · rintro ⟨hb, hB⟩
    exact ⟨A, l, b, B, hr.split, hr.getLast hend, hb, hB⟩

/-- Within a leaf, and in the last one, there is none. -/
theorem Inv.not_gapAfter (h : ih.Inv lv lvls) (hr : AtEntry lv A l B i e)
    (hin : ¬ (B ≠ [] ∧ i.slotNo + 1 = l.entries.length)) : ¬ GapAfter lv e := by
  rintro ⟨A', a, b', B', hsplit, hlast, -, -⟩
  obtain ⟨-, rfl, rfl⟩ := h.split_entry hr.split hsplit (List.mem_of_getElem? hr.entry) (List.mem_of_getLast? hlast)
  -- behind the slot there is another entry, so the last entry is not this one
  have hlt : i.slotNo + 1 < l.entries.length := by
    have hlt := hr.lt
    have : i.slotNo + 1 ≠ l.entries.length := fun he => hin ⟨by simp, he⟩
    omega
  have hs := (h.leaves l (by rw [hr.split]; simp)).sorted
  rw [← List.take_append_drop (i.slotNo + 1) l.entries] at hs hlast
  have hdrop : l.entries.drop (i.slotNo + 1) ≠ [] := by simpa using hlt
  rw [List.getLast?_append_of_ne_nil _ hdrop] at hlast
  refine lt_irrefl _ ((SortedKeys.append_iff.mp hs).2.2 e ?_ e (List.mem_of_getLast? hlast))
  rw [hr.take_succ]
  simp

/-- The start of an empty leaf that is not the last one is no position of a scan. -/
theorem Inv.empty_leaf (h : ih.Inv lv lvls) (hlv : lv = A ++ b :: B) (hb : b.entries = []) (hB : B ≠ []) :
    ih.getRid ⟨b.page, 0⟩ = .error .indexEntryNotFound ∧ ∀ X', ¬ Behind lv ⟨b.page, 0⟩ X' := by
  constructor
  · obtain ⟨y, hy, -, hypairs⟩ := (h.leaves b (by rw [hlv]; simp)).node
    unfold getRid fetchNode
    simp [hy, hypairs, hb]
  · rintro X' ⟨A', l', B', hat, -⟩
    obtain ⟨rfl, rfl, rfl⟩ := split_unique (hlv.symm.trans hat.split) (hlv ▸ h.nodup_pages) hat.page
    rcases hat.settled with hs | hs
    · simp [hb] at hs
    · exact hB hs

end AtEntry

/-- At an entry: it is read, and the scan moves on to the next entry, or onto an empty leaf. -/
theorem Inv.step (h : ih.Inv lv lvls) {i last : Iid} {X Y : List (K × Rid)} {e : K × Rid} (hi : Behind lv i X)
    (hc : contents lv = X ++ e :: Y) (hne : i ≠ last) :
    ih.getRid i = .ok e.2 ∧ ∃ i', ih.ixNext last i = .ok i' ∧
      (Behind lv i' (X ++ [e]) ∧ ¬ GapAfter lv e ∨
        GapAfter lv e ∧ ih.getRid i' = .error .indexEntryNotFound ∧ ∀ X', ¬ Behind lv i' X') := by
  obtain ⟨A, l, B, hr, rfl⟩ := atEntry_of_behind hi hc
  obtain ⟨x, hx, -, -⟩ := (h.leaves l (by rw [hr.split]; simp)).node
  refine ⟨h.getRid_atEntry hr, ?_⟩
  rw [h.ixNext_atEntry hr hx hne]
  by_cases hstep : B ≠ [] ∧ i.slotNo + 1 = l.entries.length
  · rw [if_pos hstep]
    obtain ⟨hB, hend⟩ := hstep
    obtain ⟨b, B, rfl⟩ := List.exists_cons_of_ne_nil hB
    rw [h.next_eq hr.split hx]
    refine ⟨_, rfl, ?_⟩
    have hgap := h.gapAfter_iff hr hend
    by_cases hempty : b.entries = [] ∧ B ≠ []
    · have hsplit : lv = (A ++ [l]) ++ b :: B := by
        rw [hr.split]
        simp
      exact Or.inr ⟨hgap.mpr hempty, h.empty_leaf hsplit hempty.1 hempty.2⟩
    · exact Or.inl ⟨hr.behind_next hend hempty, hgap.not.mpr hempty⟩
  · rw [if_neg hstep]
    exact ⟨_, rfl, Or.inl ⟨hr.behind_within hstep, h.not_gapAfter hr hstep⟩⟩

/-! ### Whole scans -/

/-- From behind `X` a scan visits the entries `M`, unless it is at its end before, or runs onto an empty leaf. -/
theorem Inv.visits (h : ih.Inv lv lvls) {last : Iid} {Xl : List (K × Rid)} (hlast : Behind lv last Xl) :
    ∀ {M X Z : List (K × Rid)} {i : Iid}, Behind lv i X → contents lv = X ++ (M ++ Z) →
      (∀ n < M.length, X.length + n ≠ Xl.length) →
      (∃ i', (ih.ixScan last).Visits i (M.map (·.2)) i' ∧ Behind lv i' (X ++ M) ∧ ∀ e ∈ M, ¬ GapAfter lv e) ∨
      (∃ L i', (ih.ixScan last).Visits i L i' ∧ L <+: M.map (·.2) ∧ (ih.ixScan last).isEnd i' = false ∧
        ih.getRid i' = .error .indexEntryNotFound ∧ ∃ e ∈ M, GapAfter lv e)
  | [], X, Z, i, hi, _, _ => Or.inl ⟨i, .nil _, by simpa using hi, by simp⟩
  | e :: M, X, Z, i, hi, hc, hend => by
    have hne : i ≠ last := fun he => hend 0 (by simp) ((hi.eq_iff h.nodup_pages hlast).mp he)
    have hne' : (ih.ixScan last).isEnd i = false := decide_eq_false hne
    obtain ⟨hrid, i', hnext, ⟨hi', hgap⟩ | ⟨hgap, herr, hnot⟩⟩ := h.step hi hc hne
    · have hc' : contents lv = X ++ [e] ++ (M ++ Z) := by rw [hc]; simp
      have hend' : ∀ n < M.length, (X ++ [e]).length + n ≠ Xl.length := fun n hn => by
        have := hend (n + 1) (by simpa using hn)
        simp only [List.length_append, List.length_singleton]
        omega
      rcases h.visits hlast hi' hc' hend' with ⟨j, hv, hj, hno⟩ | ⟨L, j, hv, hL, hj, herr, e', he', hgap'⟩
      · refine Or.inl ⟨j, .cons hne' hrid hnext hv, by simpa using hj, ?_⟩
        intro x hx
        rcases List.mem_cons.mp hx with rfl | hx
        · exact hgap
        · exact hno x hx
      · refine Or.inr ⟨e.2 :: L, j, .cons hne' hrid hnext hv, ?_, hj, herr, e', List.mem_cons_of_mem _ he', hgap'⟩
        simpa using hL
    · refine Or.inr ⟨[e.2], i', .cons hne' hrid hnext (.nil _), by simp, decide_eq_false ?_, herr, e, List.mem_cons_self, hgap⟩
      intro he
      exact hnot Xl (he ▸ hlast)

/-- A key lies strictly above the upper and strictly below the lower key. -/
def Crossed (lv : List (Leaf K)) (lo hi : K) : Prop := ∃ e ∈ contents lv, hi < e.1 ∧ e.1 < lo

/-- A leaf that ends between the two keys is followed by an empty leaf that is not the last. -/
def Gap (lv : List (Leaf K)) (lo hi : K) : Prop := ∃ e, GapAfter lv e ∧ lo ≤ e.1 ∧ e.1 ≤ hi

/-- The rids of the entries between two keys, from left to right. -/
def between (lv : List (Leaf K)) (lo hi : K) : List Rid :=
  ((contents lv).filter fun e => lo ≤ e.1 ∧ e.1 ≤ hi).map (·.2)

theorem between_sublist (lv : List (Leaf K)) (lo hi : K) : (between lv lo hi).Sublist ((contents lv).map (·.2)) :=
  List.filter_sublist.map _

/-- **A scan from `lower_bound(lo)` to `upper_bound(hi)`** visits the entries between the two keys, or fails,
and it fails exactly when the keys are crossed or there is a gap between them. -/
theorem Inv.scan_cases (h : ih.Inv lv lvls) (lo hi : K) :
    ∃ first last, ih.lowerBound lo = some first ∧ ih.upperBound hi = some last ∧
      (¬ Crossed lv lo hi → ¬ Gap lv lo hi →
        ∃ i, (ih.ixScan last).Visits first (between lv lo hi) i ∧ (ih.ixScan last).isEnd i = true) ∧
      (Crossed lv lo hi ∨ Gap lv lo hi → ∃ L i, (ih.ixScan last).Visits first L i ∧ L <:+: (contents lv).map (·.2) ∧
        (ih.ixScan last).isEnd i = false ∧ (ih.ixScan last).read i = .error .indexEntryNotFound) := by
  obtain ⟨first, X₁, Y₁, hfirst, hb₁, hc₁, hX₁, hY₁⟩ := h.lowerBound_spec lo
  obtain ⟨last, X₂, Y₂, hlast, hb₂, hc₂, hX₂, hY₂⟩ := h.upperBound_spec hi
  have hnd := h.nodup_pages
  refine ⟨first, last, hfirst, hlast, ?_⟩
  rcases le_or_gt X₁.length X₂.length with hle | hlt
  · -- the upper position is not before the lower one: `M` lies between them
    obtain ⟨M, rfl⟩ := List.prefix_of_prefix_length_le ⟨Y₁, hc₁.symm⟩ ⟨Y₂, hc₂.symm⟩ hle
    have hM : Y₁ = M ++ Y₂ := by
      rw [hc₁, List.append_assoc] at hc₂
      exact List.append_cancel_left hc₂
    have hMin : ∀ e ∈ M, lo ≤ e.1 ∧ e.1 ≤ hi := fun e he =>
      ⟨not_lt.mp (hY₁ e (by rw [hM]; exact List.mem_append_left _ he)), hX₂ e (List.mem_append_right _ he)⟩
    have hcross : ¬ Crossed lv lo hi := by
      rintro ⟨e, he, h1, h2⟩
      rw [hc₁] at he
      rcases List.mem_append.mp he with he | he
      · exact absurd h1 (hX₂ e (List.mem_append_left _ he)).not_gt
      · exact hY₁ e he h2
    have hbetween : between lv lo hi = M.map (·.2) := by
      unfold between
      rw [hc₂, List.filter_append, List.filter_append, List.filter_eq_nil_iff.mpr, List.filter_eq_self.mpr,
        List.filter_eq_nil_iff.mpr]
      · simp
      · intro e he
        have := hY₂ e he
        simp only [decide_eq_true_eq]
        exact fun h => this h.2
      · intro e he
        exact decide_eq_true (hMin e he)
      · intro e he
        simp only [decide_eq_true_eq]
        exact fun h => absurd (hX₁ e he) h.1.not_gt
    have hc : contents lv = X₁ ++ (M ++ Y₂) := by rw [hc₂]; simp
    rcases h.visits hb₂ hb₁ hc (fun n hn => by simp; omega) with ⟨i, hv, hi', hno⟩ | ⟨L, i, hv, hL, hi', herr, e, he, hgap⟩
    · refine ⟨fun _ _ => ⟨i, hbetween ▸ hv, ?_⟩, ?_⟩
      · exact decide_eq_true ((hi'.eq_iff hnd hb₂).mpr rfl)
      · rintro (hx | ⟨e, hgap, hle⟩)
        · exact absurd hx hcross
        · refine absurd hgap (hno e ?_)
          have hmem := hgap.mem
          rw [hc] at hmem
          rcases List.mem_append.mp hmem with hmem | hmem
          · exact absurd (hX₁ e hmem) hle.1.not_gt
          · rcases List.mem_append.mp hmem with hmem | hmem
            · exact hmem
            · exact absurd hle.2 (hY₂ e hmem)
    · refine ⟨fun _ hno => absurd ⟨e, hgap, hMin e he⟩ hno, fun _ => ⟨L, i, hv, ?_, hi', herr⟩⟩
      rw [hc]
      simp only [List.map_append]
      exact hL.isInfix.trans ⟨_, _, by rw [List.append_assoc]⟩
  · -- the upper position is before the lower one: the end is never reached
    obtain ⟨D, rfl⟩ := List.prefix_of_prefix_length_le ⟨Y₂, hc₂.symm⟩ ⟨Y₁, hc₁.symm⟩ hlt.le
    have hcross : Crossed lv lo hi := by
      cases D with
      | nil => simp at hlt
      | cons d D =>
        have hY : Y₂ = d :: D ++ Y₁ := by
          rw [hc₁, List.append_assoc] at hc₂
          exact (List.append_cancel_left hc₂).symm
        refine ⟨d, ?_, not_le.mp (hY₂ d ?_), hX₁ d (by simp)⟩
        · rw [hc₁]
          simp
        · rw [hY]
          simp
    refine ⟨fun hno => absurd hcross hno, ?_⟩
    intro _
    have hc : contents lv = X₂ ++ D ++ (Y₁ ++ []) := by rw [hc₁]; simp
    rcases h.visits hb₂ hb₁ hc (fun n _ => by omega) with ⟨i, hv, hi', -⟩ | ⟨L, i, hv, hL, hi', herr, -⟩
    · refine ⟨_, i, hv, ?_, decide_eq_false ?_, h.getRid_end (hc₁ ▸ hi')⟩
      · rw [hc₁, List.map_append]
        exact (List.suffix_append _ _).isInfix
      · intro he
        have := (hi'.eq_iff hnd hb₂).mp he
        simp only [List.length_append] at this hlt
        omega
    · refine ⟨L, i, hv, hL.isInfix.trans ?_, hi', herr⟩
      rw [hc₁, List.map_append]
      exact (List.suffix_append _ _).isInfix

end Ordered

end IxIndexHandle

end Rmdb.Index
