import Rmdb.Index.Scan

/-!
# The tree is well formed

What the invariant of `Index.Shape` says about the pages themselves. A page is in the tree
when child pointers lead to it from the root, and `Desc d p q` counts them. In every state
that calls of `insert_entry` and `delete_entry` reach, the tree is well formed
(`WellFormed`): its leaves are at one depth, its nodes are neither full nor out of order,
parents and children agree, separators bound the keys below them, and the chain of leaves
runs through all of them from left to right.

The keys are those of any linear order. On the bytes of a key without a `FLOAT` column it is
the one of `ix_compare` (`Key`, `exists_wellFormed`). `Index.Key` gives values with an order to
keys with such a column too, as long as it is no NaN: the two zeros have the same value there, and
no statement can store a NaN.
-/

namespace Rmdb.Index

open Lib

variable {K : Type}

namespace IxIndexHandle

/-- Page `q` is in a slot of the inner page `p`. -/
def Child (ih : IxIndexHandle K) (p q : ℤ) : Prop :=
  ∃ n, ih.pages p = some n ∧ n.isLeaf = false ∧ ∃ e ∈ n.pairs, e.2.pageNo = q

/-- Page `q` is `d` levels below page `p`. -/
inductive Desc (ih : IxIndexHandle K) : ℕ → ℤ → ℤ → Prop where
  /-- A page is below itself. -/
  | refl (p : ℤ) : Desc ih 0 p p
  /-- One level down. -/
  | step {d : ℕ} {p q r : ℤ} : Desc ih d p q → ih.Child q r → Desc ih (d + 1) p r

/-- The page is on the path of first children from the root. -/
inductive Leftmost (ih : IxIndexHandle K) : ℤ → Prop where
  /-- The root. -/
  | root : Leftmost ih ih.rootPage
  /-- The first child. -/
  | child {p : ℤ} {n : Node K} {k : K} {r : Rid} {B : List (K × Rid)} : Leftmost ih p → ih.pages p = some n →
      n.isLeaf = false → n.pairs = (k, r) :: B → Leftmost ih r.pageNo

/-- The node is in the tree, at page `p`. -/
def NodeAt (ih : IxIndexHandle K) (p : ℤ) (n : Node K) : Prop := (∃ d, ih.Desc d ih.rootPage p) ∧ ih.pages p = some n

/-- The key is stored at page `p` or below it. -/
def StoredBelow (ih : IxIndexHandle K) (p : ℤ) (k : K) : Prop :=
  ∃ d q m, ih.Desc d p q ∧ ih.pages q = some m ∧ ∃ e ∈ m.pairs, e.1 = k

/-- The entries of a page. -/
def entriesAt (ih : IxIndexHandle K) (p : ℤ) : List (K × Rid) := ((ih.pages p).map (·.pairs)).getD []

/-- One page follows the other in the chain of leaves, and the other knows it. -/
def NextLeaf (ih : IxIndexHandle K) (p q : ℤ) : Prop :=
  (∃ n, ih.pages p = some n ∧ n.nextLeaf = q) ∧ ∃ m, ih.pages q = some m ∧ m.prevLeaf = p

section Ordered

variable [LinearOrder K]

/-- The chain of leaves: its pages in order. -/
structure LeafChain (ih : IxIndexHandle K) (ps : List ℤ) : Prop where
  /-- It begins at `first_leaf_`. -/
  first : ps.head? = some ih.firstLeaf
  /-- It ends at `last_leaf_`. -/
  last : ps.getLast? = some ih.lastLeaf
  /-- It goes on through `next_leaf`, and `prev_leaf` is the inverse. -/
  links : ps.IsChain ih.NextLeaf
  /-- It visits no page twice. -/
  nodup : ps.Nodup
  /-- It visits exactly the leaves of the tree. -/
  leaves : ∀ p, p ∈ ps ↔ ∃ n, ih.NodeAt p n ∧ n.isLeaf = true
  /-- The keys increase along it. -/
  sorted : SortedKeys (ps.flatMap ih.entriesAt)

/-- **A well-formed tree.** -/
structure WellFormed (ih : IxIndexHandle K) : Prop where
  /-- Every page of the tree is there, and the leaves are those at one depth. -/
  depth : ∃ h, ∀ d p, ih.Desc d ih.rootPage p → ∃ n, ih.pages p = some n ∧ (n.isLeaf = true ↔ d = h)
  /-- Every node has room. -/
  size : ∀ p n, ih.NodeAt p n → n.size < ih.maxSize
  /-- The keys of every node increase strictly. -/
  sorted : ∀ p n, ih.NodeAt p n → SortedKeys n.pairs
  /-- Every child names its parent, and has one slot in it. -/
  child : ∀ p n, ih.NodeAt p n → n.isLeaf = false → ∀ e ∈ n.pairs,
    ih.HasParent e.2.pageNo p ∧ (n.pairs.map (·.2.pageNo)).count e.2.pageNo = 1
  /-- The keys below a child are not below its separator, except on the leftmost path. -/
  lower : ∀ p n, ih.NodeAt p n → n.isLeaf = false → ∀ A k r B, n.pairs = A ++ (k, r) :: B →
    (A = [] → ¬ ih.Leftmost p) → ∀ x, ih.StoredBelow r.pageNo x → k ≤ x
  /-- The keys below a child are below the next separator. -/
  upper : ∀ p n, ih.NodeAt p n → n.isLeaf = false → ∀ A k r k' r' B, n.pairs = A ++ (k, r) :: (k', r') :: B →
    ∀ x, ih.StoredBelow r.pageNo x → x < k'
  /-- The chain of leaves runs through the leaves. -/
  chain : ∃ ps, ih.LeafChain ps

end Ordered

/-! ### Levels and paths -/

section Paths

variable {ih : IxIndexHandle K}

theorem Desc.head {d : ℕ} {p q : ℤ} (h : ih.Desc (d + 1) p q) : ∃ c, ih.Child p c ∧ ih.Desc d c q := by
  induction d generalizing q with
  | zero =>
    obtain _ | ⟨h₀, hc⟩ := h
    cases h₀
    exact ⟨q, hc, .refl q⟩
  | succ d ih =>
    obtain _ | ⟨h₀, hc⟩ := h
    obtain ⟨c, hpc, hcq⟩ := ih h₀
    exact ⟨c, hpc, .step hcq hc⟩

/-- The children of an inner node. -/
theorem InnerOk.child_iff {n : Inner K} (h : ih.InnerOk n) {q : ℤ} : ih.Child n.page q ↔ q ∈ n.kids.map (·.2) := by
  obtain ⟨x, hx, hleaf, hpairs⟩ := h.node
  constructor
  · rintro ⟨x', hx', -, e, he, rfl⟩
    obtain rfl : x = x' := by simpa [hx] using hx'
    rw [hpairs] at he
    obtain ⟨kid, hkid, rfl⟩ := List.mem_map.mp he
    exact List.mem_map_of_mem hkid
  · intro hq
    obtain ⟨kid, hkid, rfl⟩ := List.mem_map.mp hq
    exact ⟨x, hx, hleaf, slot kid, hpairs ▸ List.mem_map_of_mem hkid, rfl⟩

/-- The pages as many levels below the root as there are inner levels are those of the bottom level. -/
theorem Up.desc_iff : ∀ {lvls : List (List (Inner K))} {cur : List (K × ℤ)}, ih.Up cur lvls →
    ∀ q, ih.Desc lvls.length ih.rootPage q ↔ q ∈ cur.map (·.2)
  | [], cur, ⟨k, hcur, _⟩, q => by
    subst hcur
    constructor
    · intro h
      cases h
      simp
    · intro h
      obtain rfl : q = ih.rootPage := by simpa using h
      exact .refl _
  | lvl :: rest, cur, ⟨hcur, hok, hrest⟩, q => by
    have ih' := hrest.desc_iff
    subst hcur
    constructor
    · intro h
      obtain _ | ⟨h₀, hc⟩ := h
      obtain ⟨n', hn', hp⟩ := List.mem_map.mp ((ih' _).mp h₀)
      obtain ⟨n, hn, rfl⟩ := List.mem_map.mp hn'
      subst hp
      obtain ⟨e, he, rfl⟩ := List.mem_map.mp ((hok n hn).child_iff.mp hc)
      exact List.mem_map_of_mem (List.mem_flatMap.mpr ⟨n, hn, he⟩)
    · intro h
      obtain ⟨e, he, rfl⟩ := List.mem_map.mp h
      obtain ⟨n, hn, he⟩ := List.mem_flatMap.mp he
      have hroot := (ih' n.page).mpr (List.mem_map.mpr ⟨n.link, List.mem_map_of_mem hn, rfl⟩)
      exact .step hroot ((hok n hn).child_iff.mpr (List.mem_map_of_mem he))

/-- A page above the bottom level is an inner node. -/
theorem Up.desc_inner : ∀ {lvls : List (List (Inner K))} {cur : List (K × ℤ)}, ih.Up cur lvls → ∀ {d q},
    d < lvls.length → ih.Desc d ih.rootPage q → ∃ lvl ∈ lvls, ∃ n ∈ lvl, n.page = q
  | [], _, _, _, _, hd, _ => absurd hd (Nat.not_lt_zero _)
  | lvl :: rest, _, ⟨_, _, hrest⟩, d, q, hd, hq => by
    rcases Nat.lt_succ_iff_lt_or_eq.mp hd with hd | rfl
    · obtain ⟨lvl', hlvl', h⟩ := hrest.desc_inner hd hq
      exact ⟨lvl', List.mem_cons_of_mem _ hlvl', h⟩
    · obtain ⟨e, he, rfl⟩ := List.mem_map.mp ((hrest.desc_iff q).mp hq)
      obtain ⟨n, hn, rfl⟩ := List.mem_map.mp he
      exact ⟨lvl, List.mem_cons_self, n, hn, rfl⟩

theorem Up.innerOk : ∀ {lvls : List (List (Inner K))} {cur : List (K × ℤ)}, ih.Up cur lvls → ∀ {lvl n},
    lvl ∈ lvls → n ∈ lvl → ih.InnerOk n
  | [], _, _, _, _, hlvl, _ => nomatch hlvl
  | _ :: _, _, ⟨_, hok, hrest⟩, _, n, hlvl, hn => by
    rcases List.mem_cons.mp hlvl with rfl | hlvl
    · exact hok n hn
    · exact hrest.innerOk hlvl hn

/-- Every inner page is below the root. -/
theorem Up.desc_of_inner : ∀ {lvls : List (List (Inner K))} {cur : List (K × ℤ)}, ih.Up cur lvls → ∀ {lvl n},
    lvl ∈ lvls → n ∈ lvl → ∃ d, ih.Desc d ih.rootPage n.page
  | [], _, _, _, _, hlvl, _ => nomatch hlvl
  | _ :: rest, _, ⟨_, _, hrest⟩, _, n, hlvl, hn => by
    rcases List.mem_cons.mp hlvl with rfl | hlvl
    · exact ⟨rest.length, (hrest.desc_iff _).mpr (List.mem_map.mpr ⟨n.link, List.mem_map_of_mem hn, rfl⟩)⟩
    · exact hrest.desc_of_inner hlvl hn

/-- The first node of every level is on the leftmost path. -/
theorem Up.leftmost_head : ∀ {lvls : List (List (Inner K))} {cur : List (K × ℤ)}, ih.Up cur lvls → ∀ {e t},
    cur = e :: t → ih.Leftmost e.2
  | [], _, ⟨k, hcur, _⟩, e, t, h => by
    rw [hcur] at h
    obtain ⟨rfl, -⟩ := List.cons.inj h
    exact .root
  | [] :: rest, _, ⟨hcur, _, _⟩, e, t, h => by
    rw [← hcur] at h
    cases h
  | (n :: lvl) :: rest, _, ⟨hcur, hok, hrest⟩, e, t, h => by
    have hn := hok n List.mem_cons_self
    obtain ⟨c, t', hkids⟩ := hn.lead
    obtain ⟨x, hx, hleaf, hpairs⟩ := hn.node
    rw [← hcur, List.flatMap_cons, hkids] at h
    obtain ⟨rfl, -⟩ := List.cons.inj h
    have hpairs' : x.pairs = (n.lead, ⟨c, -1⟩) :: t'.map slot := by rw [hpairs, hkids]; rfl
    have hlm : ih.Leftmost n.page := hrest.leftmost_head (e := n.link) rfl
    exact Leftmost.child hlm hx hleaf hpairs'

/-- Below an inner node there are its own separators and the keys below its children. -/
theorem InnerOk.storedBelow {n : Inner K} (h : ih.InnerOk n) {x : K} (hx : ih.StoredBelow n.page x) :
    (∃ e ∈ n.kids, e.1 = x) ∨ ∃ e ∈ n.kids, ih.StoredBelow e.2 x := by
  obtain ⟨d, q, m, hd, hm, e, he, rfl⟩ := hx
  cases d with
  | zero =>
    cases hd
    obtain ⟨y, hy, -, hpairs⟩ := h.node
    obtain rfl : y = m := by simpa [hy] using hm
    rw [hpairs] at he
    obtain ⟨kid, hkid, rfl⟩ := List.mem_map.mp he
    exact Or.inl ⟨kid, hkid, rfl⟩
  | succ d =>
    obtain ⟨c, hc, hd⟩ := hd.head
    obtain ⟨kid, hkid, rfl⟩ := List.mem_map.mp (h.child_iff.mp hc)
    exact Or.inr ⟨kid, hkid, d, q, m, hd, hm, e, he, rfl⟩

theorem flatMap_kids_ne_nil {lvl : List (Inner K)} (hlead : ∀ n ∈ lvl, ∃ c t, n.kids = (n.lead, c) :: t) (h : lvl ≠ []) :
    lvl.flatMap (·.kids) ≠ [] := by
  obtain ⟨n, hn⟩ := List.exists_mem_of_ne_nil _ h
  obtain ⟨c, t, hkids⟩ := hlead n hn
  exact List.ne_nil_of_mem (List.mem_flatMap.mpr ⟨n, hn, hkids ▸ List.mem_cons_self⟩)

/-- The children of an inner node are different pages. -/
theorem Up.nodup_kids : ∀ {lvls : List (List (Inner K))} {cur : List (K × ℤ)}, ih.Up cur lvls →
    ih.PagesOk (cur.map (·.2) ++ upPages lvls) → ∀ {lvl n}, lvl ∈ lvls → n ∈ lvl → (n.kids.map (·.2)).Nodup
  | [], _, _, _, _, _, hlvl, _ => nomatch hlvl
  | lvl₀ :: rest, _, ⟨hcur, hok, hrest⟩, hpg, lvl, n, hlvl, hn => by
    rcases List.mem_cons.mp hlvl with rfl | hlvl
    · have hnd := (List.nodup_append.mp hpg.nodup).1
      rw [← hcur] at hnd
      refine hnd.sublist (List.Sublist.map _ ?_)
      exact List.sublist_flatten_of_mem (List.mem_map_of_mem hn)
    · exact hrest.nodup_kids (PagesOk.level hpg) hlvl hn

theorem Chain.isChain : ∀ {l : List ℤ} {prev : ℤ}, ih.Chain prev l → l.IsChain ih.NextLeaf
  | [], _, _ => .nil
  | [p], _, _ => .singleton p
  | p :: q :: rest, _, ⟨⟨x, hx, _, hnext⟩, h⟩ => by
    obtain ⟨y, hy, hprev, -⟩ := h.1
    exact .cons_cons ⟨⟨x, hx, hnext⟩, y, hy, hprev⟩ h.isChain

end Paths

/-! ### Separators -/

section Separators

variable [LinearOrder K] {ih : IxIndexHandle K} {lv : List (Leaf K)} {lvls : List (List (Inner K))}

/-- The separators of a level bound the keys below its nodes; the first one only from above. -/
def Bounds (ih : IxIndexHandle K) (cur : List (K × ℤ)) : Prop :=
  ∀ U k p V, cur = U ++ (k, p) :: V → ∀ x, ih.StoredBelow p x → (U ≠ [] → k ≤ x) ∧ ∀ e ∈ V, x < e.1

/-- Below a leaf there are its own keys. -/
theorem LeafOk.storedBelow {l : Leaf K} (h : ih.LeafOk l) {x : K} (hx : ih.StoredBelow l.page x) :
    ∃ e ∈ l.entries, e.1 = x := by
  obtain ⟨n, hn, hleaf, hpairs⟩ := h.node
  obtain ⟨d, q, m, hd, hm, e, he, rfl⟩ := hx
  cases d with
  | zero =>
    cases hd
    obtain rfl : n = m := by simpa [hn] using hm
    exact ⟨e, hpairs ▸ he, rfl⟩
  | succ d =>
    obtain ⟨c, ⟨n', hn', hleaf', -⟩, -⟩ := hd.head
    obtain rfl : n = n' := by simpa [hn] using hn'
    rw [hleaf] at hleaf'
    cases hleaf'

theorem Inv.bounds_leaves (h : ih.Inv lv lvls) : ih.Bounds (lv.map Leaf.link) := by
  intro U k p V hsplit x hx
  obtain ⟨A, L', rfl, rfl, hL'⟩ := List.map_eq_append_iff.mp hsplit
  obtain ⟨l, B, rfl, hl, rfl⟩ := List.map_eq_cons_iff.mp hL'
  obtain ⟨rfl, rfl⟩ := Prod.mk.inj hl
  obtain ⟨e, he, rfl⟩ := (h.leaves l (by simp)).storedBelow hx
  refine ⟨fun hA => h.keys.lower l ?_ e he, ?_⟩
  · cases A with
    | nil => simp at hA
    | cons a A => simp
  · intro b hb
    obtain ⟨l', hl', rfl⟩ := List.mem_map.mp hb
    exact ((List.pairwise_cons.mp (List.pairwise_append.mp h.keys.ranges).2.1).1 l' hl').2 e he

/-- What bounds the children of a level bounds the level. -/
theorem Bounds.links {lvl : List (Inner K)} (hb : ih.Bounds (lvl.flatMap (·.kids)))
    (hs : SortedKeys (lvl.flatMap (·.kids))) (hok : ∀ n ∈ lvl, ih.InnerOk n) : ih.Bounds (lvl.map Inner.link) := by
  intro U k p V hsplit x hx
  obtain ⟨L₁, L', rfl, rfl, hL'⟩ := List.map_eq_append_iff.mp hsplit
  obtain ⟨n, L₂, rfl, hn, rfl⟩ := List.map_eq_cons_iff.mp hL'
  obtain ⟨rfl, rfl⟩ := Prod.mk.inj hn
  have hlead : ∀ m ∈ L₁ ++ n :: L₂, ∃ c t, m.kids = (m.lead, c) :: t := fun m hm => (hok m hm).lead
  obtain ⟨hlinks, hkids⟩ := sorted_links hlead hs
  have hnmem : n ∈ L₁ ++ n :: L₂ := by simp
  obtain ⟨c₀, t₀, hn₀⟩ := hlead n hnmem
  have hmin : ∀ e ∈ n.kids, n.lead ≤ e.1 := by
    intro e he
    have hsn := hkids n hnmem
    rw [hn₀] at he hsn
    rcases List.mem_cons.mp he with rfl | he
    · exact le_rfl
    · exact ((List.pairwise_cons.mp hsn).1 e he).le
  have hnext : ∀ e ∈ n.kids, ∀ m ∈ L₂, e.1 < m.lead := by
    intro e he m hm
    obtain ⟨c, t, hmk⟩ := hlead m (by simp [hm])
    have hpw := (List.pairwise_flatMap.mp hs).2
    exact (List.pairwise_cons.mp (List.pairwise_append.mp hpw).2.1).1 m hm e he (m.lead, c) (hmk ▸ List.mem_cons_self)
  rcases (hok n hnmem).storedBelow hx with ⟨e, he, rfl⟩ | ⟨e, he, hx⟩
  · refine ⟨fun _ => hmin e he, ?_⟩
    intro b hb
    obtain ⟨m, hm, rfl⟩ := List.mem_map.mp hb
    exact hnext e he m hm
  · obtain ⟨A, B, hAB⟩ := List.append_of_mem he
    have hflat : (L₁ ++ n :: L₂).flatMap (·.kids) =
        (L₁.flatMap (·.kids) ++ A) ++ (e.1, e.2) :: (B ++ L₂.flatMap (·.kids)) := by
      simp [hAB]
    obtain ⟨hlow, hup⟩ := hb _ _ _ _ hflat x hx
    refine ⟨fun hL₁ => (hmin e he).trans (hlow ?_), ?_⟩
    · have := flatMap_kids_ne_nil (fun m hm => hlead m (by simp [hm])) (fun h0 : L₁ = [] => hL₁ (by simp [h0]))
      simp [this]
    · intro b hb
      obtain ⟨m, hm, rfl⟩ := List.mem_map.mp hb
      obtain ⟨c, t, hmk⟩ := hlead m (by simp [hm])
      refine hup (m.lead, c) (List.mem_append_right _ (List.mem_flatMap.mpr ⟨m, hm, ?_⟩))
      rw [hmk]
      exact List.mem_cons_self

/-- The separators in an inner node bound the keys below its children. -/
theorem Up.node_bounds : ∀ {lvls : List (List (Inner K))} {cur : List (K × ℤ)}, ih.Up cur lvls → SortedKeys cur →
    ih.Bounds cur → ∀ {lvl n}, lvl ∈ lvls → n ∈ lvl → SortedKeys n.kids ∧
      ∀ A k p B, n.kids = A ++ (k, p) :: B → ∀ x, ih.StoredBelow p x →
        ((A = [] → ¬ ih.Leftmost n.page) → k ≤ x) ∧ ∀ e ∈ B, x < e.1
  | [], _, _, _, _, _, _, hlvl, _ => nomatch hlvl
  | lvl₀ :: rest, _, ⟨hcur, hok, hrest⟩, hs, hb, lvl, n, hlvl, hn => by
    subst hcur
    have hlead : ∀ m ∈ lvl₀, ∃ c t, m.kids = (m.lead, c) :: t := fun m hm => (hok m hm).lead
    obtain ⟨hlinks, hkids⟩ := sorted_links hlead hs
    rcases List.mem_cons.mp hlvl with rfl | hlvl
    · refine ⟨hkids n hn, ?_⟩
      intro A k p B hAB x hx
      obtain ⟨L₁, L₂, rfl⟩ := List.append_of_mem hn
      have hflat : (L₁ ++ n :: L₂).flatMap (·.kids) =
          (L₁.flatMap (·.kids) ++ A) ++ (k, p) :: (B ++ L₂.flatMap (·.kids)) := by
        simp [hAB]
      obtain ⟨hlow, hup⟩ := hb _ _ _ _ hflat x hx
      refine ⟨fun hnot => hlow ?_, fun e he => hup e (List.mem_append_left _ he)⟩
      intro hnil
      -- with nothing before the child, the node is the first one of its level
      obtain ⟨hL₁, rfl⟩ := List.append_eq_nil_iff.mp hnil
      have hL₁' : L₁ = [] := by
        by_contra hne
        exact flatMap_kids_ne_nil (fun m hm => hlead m (by simp [hm])) hne hL₁
      subst hL₁'
      exact hnot rfl (hrest.leftmost_head (e := n.link) rfl)
    · exact hrest.node_bounds hlinks (hb.links hs hok) hlvl hn

end Separators

/-! ### The whole tree -/

section Tree

variable [LinearOrder K] {ih : IxIndexHandle K} {lv : List (Leaf K)} {lvls : List (List (Inner K))}

theorem Inv.leaf_of_depth (h : ih.Inv lv lvls) {p : ℤ} (hp : ih.Desc lvls.length ih.rootPage p) :
    ∃ l ∈ lv, l.page = p := by
  obtain ⟨e, he, rfl⟩ := List.mem_map.mp ((h.up.desc_iff p).mp hp)
  obtain ⟨l, hl, rfl⟩ := List.mem_map.mp he
  exact ⟨l, hl, rfl⟩

/-- No page is deeper than the leaves. -/
theorem Inv.desc_le (h : ih.Inv lv lvls) {d : ℕ} {p : ℤ} (hd : ih.Desc d ih.rootPage p) : d ≤ lvls.length := by
  induction d generalizing p with
  | zero => exact Nat.zero_le _
  | succ d hind =>
    obtain _ | ⟨hq, n, hn, hleaf, -⟩ := hd
    refine lt_of_le_of_ne (hind hq) ?_
    intro heq
    subst heq
    obtain ⟨l, hl, rfl⟩ := h.leaf_of_depth hq
    obtain ⟨n', hn', hleaf', -⟩ := (h.leaves l hl).node
    obtain rfl : n = n' := by simpa [hn] using hn'
    rw [hleaf] at hleaf'
    cases hleaf'

/-- A page of the tree is one of the inner nodes, above the leaves, or a leaf. -/
theorem Inv.desc_cases (h : ih.Inv lv lvls) {d : ℕ} {p : ℤ} (hd : ih.Desc d ih.rootPage p) :
    (d < lvls.length ∧ ∃ lvl ∈ lvls, ∃ n ∈ lvl, n.page = p) ∨ (d = lvls.length ∧ ∃ l ∈ lv, l.page = p) := by
  rcases (h.desc_le hd).lt_or_eq with hlt | rfl
  · exact Or.inl ⟨hlt, h.up.desc_inner hlt hd⟩
  · exact Or.inr ⟨rfl, h.leaf_of_depth hd⟩

/-- A node of the tree is an inner node or a leaf of the description. -/
theorem Inv.node_cases (h : ih.Inv lv lvls) {p : ℤ} {x : Node K} (hx : ih.NodeAt p x) :
    (x.isLeaf = false ∧ ∃ lvl ∈ lvls, ∃ n ∈ lvl, n.page = p ∧ x.pairs = n.kids.map slot) ∨
      (x.isLeaf = true ∧ ∃ l ∈ lv, l.page = p ∧ x.pairs = l.entries) := by
  obtain ⟨⟨d, hd⟩, hpage⟩ := hx
  rcases h.desc_cases hd with ⟨-, lvl, hlvl, n, hn, rfl⟩ | ⟨-, l, hl, rfl⟩
  · obtain ⟨y, hy, hleaf, hpairs⟩ := (h.up.innerOk hlvl hn).node
    obtain rfl : x = y := by simpa [hpage] using hy
    exact Or.inl ⟨hleaf, lvl, hlvl, n, hn, rfl, hpairs⟩
  · obtain ⟨y, hy, hleaf, hpairs⟩ := (h.leaves l hl).node
    obtain rfl : x = y := by simpa [hpage] using hy
    exact Or.inr ⟨hleaf, l, hl, rfl, hpairs⟩

/-- A leaf of the description is one of the tree. -/
theorem Inv.nodeAt_leaf (h : ih.Inv lv lvls) {l : Leaf K} (hl : l ∈ lv) :
    ∃ x, ih.NodeAt l.page x ∧ x.isLeaf = true ∧ x.pairs = l.entries := by
  obtain ⟨x, hx, hleaf, hpairs⟩ := (h.leaves l hl).node
  have hmem : l.page ∈ (lv.map Leaf.link).map (·.2) := List.mem_map.mpr ⟨l.link, List.mem_map_of_mem hl, rfl⟩
  exact ⟨x, ⟨⟨_, (h.up.desc_iff _).mpr hmem⟩, hx⟩, hleaf, hpairs⟩

theorem Inv.leafChain (h : ih.Inv lv lvls) : ih.LeafChain (lv.map (·.page)) := by
  refine ⟨h.first, h.last, h.chain.isChain, h.nodup_pages, fun p => ⟨?_, ?_⟩, ?_⟩
  · intro hp
    obtain ⟨l, hl, rfl⟩ := List.mem_map.mp hp
    obtain ⟨x, hx, hleaf, -⟩ := h.nodeAt_leaf hl
    exact ⟨x, hx, hleaf⟩
  · rintro ⟨x, hx, hleaf⟩
    rcases h.node_cases hx with ⟨hinner, -⟩ | ⟨-, l, hl, rfl, -⟩
    · rw [hleaf] at hinner
      cases hinner
    · exact List.mem_map_of_mem hl
  · have hentries : (lv.map (·.page)).flatMap ih.entriesAt = contents lv := by
      rw [List.flatMap_map]
      refine List.flatMap_congr ?_
      intro l hl
      obtain ⟨x, hx, -, hpairs⟩ := (h.leaves l hl).node
      simp [entriesAt, hx, hpairs]
    rw [hentries]
    exact h.sorted_contents

/-- **The invariant makes a tree well formed.** -/
theorem Inv.wellFormed (h : ih.Inv lv lvls) : ih.WellFormed where
  depth := by
    refine ⟨lvls.length, ?_⟩
    intro d p hd
    rcases h.desc_cases hd with ⟨hlt, lvl, hlvl, n, hn, rfl⟩ | ⟨rfl, l, hl, rfl⟩
    · obtain ⟨x, hx, hleaf, -⟩ := (h.up.innerOk hlvl hn).node
      exact ⟨x, hx, by simp [hleaf, hlt.ne]⟩
    · obtain ⟨x, hx, hleaf, -⟩ := (h.leaves l hl).node
      exact ⟨x, hx, by simp [hleaf]⟩
  size := by
    intro p x hx
    rcases h.node_cases hx with ⟨-, lvl, hlvl, n, hn, -, hpairs⟩ | ⟨-, l, hl, -, hpairs⟩
    · rw [Node.size, hpairs, List.length_map]
      exact (h.up.innerOk hlvl hn).size
    · rw [Node.size, hpairs]
      exact (h.leaves l hl).size
  sorted := by
    intro p x hx
    rcases h.node_cases hx with ⟨-, lvl, hlvl, n, hn, -, hpairs⟩ | ⟨-, l, hl, -, hpairs⟩
    · rw [hpairs]
      exact List.pairwise_map.mpr (h.up.node_bounds h.keys.sorted_links h.bounds_leaves hlvl hn).1
    · rw [hpairs]
      exact (h.leaves l hl).sorted
  child := by
    intro p x hx hinner e he
    obtain ⟨-, lvl, hlvl, n, hn, rfl, hpairs⟩ | ⟨hleaf, -⟩ := h.node_cases hx
    · rw [hpairs] at he ⊢
      obtain ⟨kid, hkid, rfl⟩ := List.mem_map.mp he
      refine ⟨(h.up.innerOk hlvl hn).parents kid hkid, ?_⟩
      rw [List.map_map]
      exact List.count_eq_one_of_mem (h.up.nodup_kids h.link_pages hlvl hn) (List.mem_map_of_mem hkid)
    · rw [hinner] at hleaf
      cases hleaf
  lower := by
    intro p x hx hinner A k r B hAB hnot y hy
    obtain ⟨-, lvl, hlvl, n, hn, rfl, hpairs⟩ | ⟨hleaf, -⟩ := h.node_cases hx
    · rw [hpairs] at hAB
      obtain ⟨A', L', hkids, rfl, hL'⟩ := List.map_eq_append_iff.mp hAB
      obtain ⟨kid, B', rfl, hkid, rfl⟩ := List.map_eq_cons_iff.mp hL'
      obtain ⟨rfl, rfl⟩ := Prod.mk.inj hkid
      refine ((h.up.node_bounds h.keys.sorted_links h.bounds_leaves hlvl hn).2 A' kid.1 kid.2 B' hkids y hy).1 ?_
      rintro rfl
      exact hnot rfl
    · rw [hinner] at hleaf
      cases hleaf
  upper := by
    intro p x hx hinner A k r k' r' B hAB y hy
    obtain ⟨-, lvl, hlvl, n, hn, rfl, hpairs⟩ | ⟨hleaf, -⟩ := h.node_cases hx
    · rw [hpairs] at hAB
      obtain ⟨A', L', hkids, rfl, hL'⟩ := List.map_eq_append_iff.mp hAB
      obtain ⟨kid, B', rfl, hkid, hB'⟩ := List.map_eq_cons_iff.mp hL'
      obtain ⟨kid', B'', rfl, hkid', rfl⟩ := List.map_eq_cons_iff.mp hB'
      obtain ⟨rfl, rfl⟩ := Prod.mk.inj hkid
      obtain ⟨rfl, rfl⟩ := Prod.mk.inj hkid'
      exact ((h.up.node_bounds h.keys.sorted_links h.bounds_leaves hlvl hn).2 A' kid.1 kid.2 _ hkids y hy).2 kid'
        List.mem_cons_self
    · rw [hinner] at hleaf
      cases hleaf
  chain := ⟨_, h.leafChain⟩

end Tree

end IxIndexHandle

/-- **The index tree is well formed in every reachable state.** -/
theorem runOps_wellFormed [LinearOrder K] [Inhabited K] (order : ℕ) (horder : 2 < order) (ops : List (Op K)) :
    ∃ ih, runOps (IxIndexHandle.createIndex order) ops = some ih ∧ ih.WellFormed := by
  obtain ⟨ih, lv, lvls, hrun, hinv, -⟩ := run_inv ops (IxIndexHandle.createIndex_inv horder (default : K))
  exact ⟨ih, hrun, hinv.wellFormed⟩

/-- Seven insertions split the leaf at the root; the deletions then empty the left one. -/
theorem runOps_wellFormed_emptied :
    ∃ ih, runOps (IxIndexHandle.createIndex 6) [Op.insert (1 : ℤ) ⟨1, 0⟩, .insert 2 ⟨1, 1⟩, .insert 3 ⟨1, 2⟩,
      .insert 4 ⟨1, 3⟩, .insert 5 ⟨1, 4⟩, .insert 6 ⟨1, 5⟩, .insert 7 ⟨1, 6⟩, .delete 1, .delete 2, .delete 3] = some ih ∧
      ih.WellFormed :=
  runOps_wellFormed 6 (by decide) _

end Rmdb.Index
