import Rmdb.Index.Handle
import Mathlib.Data.List.Nodup
import Mathlib.Data.List.Flatten

/-!
# The shape of the tree

The invariant of the index tree, stated level by level. A tree is described by its
leaves from left to right, each with the separator above it, and by its inner levels
from the bottom up, each a list of inner nodes from left to right. The children of one
level, concatenated, are the nodes of the level below, and the top level is the root
alone (`Up`).

What the separators may be is the point of the invariant. Above an inner node the
separator is always the node's own first key. Above a leaf it is only a lower bound of
the leaf's keys, and above the leftmost leaf not even that: an insertion at slot `0`
that splits the leaf leaves the old separator in place, and a deletion that empties a
leaf does too. Two facts keep the tree searchable all the same: the separators of the
leaves increase strictly, with every key of a leaf below the next separator (`ranges`),
and a leaf that is about to split has a separator that bounds its keys (`fresh`),
because it reached that size by an insertion that refreshed it.
-/

namespace Rmdb.Index

open Lib

/-- A leaf: the separator above it, its page, and its entries. -/
structure Leaf (K : Type) where
  /-- The separator. -/
  sep : K
  /-- The page. -/
  page : ℤ
  /-- The entries. -/
  entries : List (K × Rid)

/-- An inner node: its page, its first key, and its children with their separators. -/
structure Inner (K : Type) where
  /-- The page. -/
  page : ℤ
  /-- The first key. -/
  lead : K
  /-- The separators and the pages of the children. -/
  kids : List (K × ℤ)

variable {K : Type}

/-- How an inner node keeps a child: the slot number is `-1`. -/
def slot (e : K × ℤ) : K × Rid := (e.1, ⟨e.2, -1⟩)

/-- A node among the children of its parent. -/
def Inner.link (n : Inner K) : K × ℤ := (n.lead, n.page)

/-- A leaf among the children of its parent. -/
def Leaf.link (l : Leaf K) : K × ℤ := (l.sep, l.page)

/-- The pages of the inner levels. -/
def upPages (lvls : List (List (Inner K))) : List ℤ := lvls.flatten.map (·.page)

/-- The entries of the leaves, from left to right. -/
def contents (lv : List (Leaf K)) : List (K × Rid) := lv.flatMap (·.entries)

namespace IxIndexHandle

/-- Page `p` is there and has the parent `q`. -/
def HasParent (ih : IxIndexHandle K) (p q : ℤ) : Prop := ∃ x, ih.pages p = some x ∧ x.parent = q

/-- An inner node is stored as described, and its children know it. -/
structure InnerOk (ih : IxIndexHandle K) (n : Inner K) : Prop where
  lead : ∃ c t, n.kids = (n.lead, c) :: t
  size : n.kids.length < ih.maxSize
  node : ∃ x, ih.pages n.page = some x ∧ x.isLeaf = false ∧ x.pairs = n.kids.map slot
  parents : ∀ e ∈ n.kids, ih.HasParent e.2 n.page

/-- The inner levels above a level of nodes `cur`, given with their separators. -/
def Up (ih : IxIndexHandle K) : List (K × ℤ) → List (List (Inner K)) → Prop
  | cur, [] => ∃ k, cur = [(k, ih.rootPage)] ∧ ih.HasParent ih.rootPage IX_NO_PAGE
  | cur, lvl :: rest => lvl.flatMap (·.kids) = cur ∧ (∀ n ∈ lvl, ih.InnerOk n) ∧ Up ih (lvl.map Inner.link) rest

/-- Distinct allocated pages. -/
structure PagesOk (ih : IxIndexHandle K) (l : List ℤ) : Prop where
  nodup : l.Nodup
  range : ∀ x ∈ l, 2 ≤ x ∧ x < ih.fd2pageno

/-- The leaves are linked both ways, with the leaf header page at both ends. -/
def Chain (ih : IxIndexHandle K) : ℤ → List ℤ → Prop
  | _, [] => True
  | prev, p :: rest =>
    (∃ x, ih.pages p = some x ∧ x.prevLeaf = prev ∧ x.nextLeaf = rest.headD IX_LEAF_HEADER_PAGE) ∧
      Chain ih p rest

section Ordered

variable [LinearOrder K]

/-- A leaf is stored as described. -/
structure LeafOk (ih : IxIndexHandle K) (l : Leaf K) : Prop where
  node : ∃ x, ih.pages l.page = some x ∧ x.isLeaf = true ∧ x.pairs = l.entries
  sorted : SortedKeys l.entries
  size : l.entries.length < ih.maxSize
  fresh : l.entries.length = ih.btreeOrder → ∀ e ∈ l.entries, l.sep ≤ e.1

/-- The keys of the leaves lie between their separators. -/
structure RangesOk (lv : List (Leaf K)) : Prop where
  ranges : lv.Pairwise fun a b => a.sep < b.sep ∧ ∀ e ∈ a.entries, e.1 < b.sep
  lower : ∀ l ∈ lv.tail, ∀ e ∈ l.entries, l.sep ≤ e.1

/-- **The invariant of the index tree.** -/
structure Inv (ih : IxIndexHandle K) (lv : List (Leaf K)) (lvls : List (List (Inner K))) : Prop where
  order : 2 < ih.btreeOrder
  up : ih.Up (lv.map Leaf.link) lvls
  pages : ih.PagesOk (lv.map (·.page) ++ upPages lvls)
  leaves : ∀ l ∈ lv, ih.LeafOk l
  keys : RangesOk lv
  chain : ih.Chain IX_LEAF_HEADER_PAGE (lv.map (·.page))
  first : (lv.map (·.page)).head? = some ih.firstLeaf
  last : (lv.map (·.page)).getLast? = some ih.lastLeaf

end Ordered

/-! ### Frames -/

/-- Page `x` keeps its parent. -/
def SameParent (ih ih' : IxIndexHandle K) (x : ℤ) : Prop :=
  ∀ n, ih.pages x = some n → ∃ n', ih'.pages x = some n' ∧ n'.parent = n.parent

/-- Page `x` keeps everything but its parent. -/
def SameContent (ih ih' : IxIndexHandle K) (x : ℤ) : Prop :=
  ∀ n, ih.pages x = some n → ∃ r, ih'.pages x = some { n with parent := r }

theorem SameParent.of_eq {ih ih' : IxIndexHandle K} {x : ℤ} (h : ih'.pages x = ih.pages x) : SameParent ih ih' x :=
  fun n hn => ⟨n, h.trans hn, rfl⟩

theorem SameContent.of_eq {ih ih' : IxIndexHandle K} {x : ℤ} (h : ih'.pages x = ih.pages x) : SameContent ih ih' x :=
  fun n hn => ⟨n.parent, h.trans hn⟩

theorem SameContent.trans {ih₁ ih₂ ih₃ : IxIndexHandle K} {x : ℤ} (h₁ : SameContent ih₁ ih₂ x)
    (h₂ : SameContent ih₂ ih₃ x) : SameContent ih₁ ih₃ x := by
  intro n hn
  obtain ⟨r, hr⟩ := h₁ n hn
  obtain ⟨r', hr'⟩ := h₂ _ hr
  exact ⟨r', hr'⟩

theorem HasParent.congr {ih ih' : IxIndexHandle K} {p q : ℤ} (h : SameParent ih ih' p) (hp : ih.HasParent p q) :
    ih'.HasParent p q := by
  obtain ⟨x, hx, rfl⟩ := hp
  exact h x hx

theorem InnerOk.congr {ih ih' : IxIndexHandle K} {n : Inner K} (hn : ih.InnerOk n)
    (hord : ih'.btreeOrder = ih.btreeOrder) (hpage : SameContent ih ih' n.page)
    (hkids : ∀ e ∈ n.kids, SameParent ih ih' e.2) : ih'.InnerOk n := by
  obtain ⟨x, hx, hleaf, hpairs⟩ := hn.node
  obtain ⟨r, hr⟩ := hpage x hx
  refine ⟨hn.lead, ?_, ⟨_, hr, hleaf, hpairs⟩, fun e he => (hn.parents e he).congr (hkids e he)⟩
  have := hn.size
  unfold maxSize at this ⊢
  rwa [hord]

theorem mem_upPages_cons {x : ℤ} {lvl : List (Inner K)} {rest : List (List (Inner K))} :
    x ∈ upPages (lvl :: rest) ↔ x ∈ lvl.map (·.page) ∨ x ∈ upPages rest := by
  simp [upPages]

theorem upPages_cons (lvl : List (Inner K)) (rest : List (List (Inner K))) :
    upPages (lvl :: rest) = lvl.map (·.page) ++ upPages rest := by
  simp [upPages]

/-- The inner levels depend on their own pages and on the parents of the level below. -/
theorem Up.congr {ih ih' : IxIndexHandle K} (hroot : ih'.rootPage = ih.rootPage)
    (hord : ih'.btreeOrder = ih.btreeOrder) :
    ∀ {lvls : List (List (Inner K))} {cur : List (K × ℤ)}, ih.Up cur lvls →
      (∀ e ∈ cur, SameParent ih ih' e.2) → (∀ x ∈ upPages lvls, ih'.pages x = ih.pages x) → ih'.Up cur lvls
  | [], cur, h, hcur, _ => by
    obtain ⟨k, rfl, hp⟩ := h
    refine ⟨k, by rw [hroot], ?_⟩
    rw [hroot]
    exact hp.congr (hcur _ List.mem_cons_self)
  | lvl :: rest, cur, h, hcur, hup => by
    obtain ⟨rfl, hok, hrest⟩ := h
    have hpage : ∀ n ∈ lvl, ih'.pages n.page = ih.pages n.page := fun n hn =>
      hup _ (mem_upPages_cons.mpr (Or.inl (List.mem_map_of_mem hn)))
    refine ⟨rfl, fun n hn => (hok n hn).congr hord (.of_eq (hpage n hn)) ?_, ?_⟩
    · intro e he
      exact hcur e (List.mem_flatMap.mpr ⟨n, hn, he⟩)
    · refine Up.congr hroot hord hrest ?_ fun x hx => hup x (mem_upPages_cons.mpr (Or.inr hx))
      intro e he
      obtain ⟨n, hn, rfl⟩ := List.mem_map.mp he
      exact .of_eq (hpage n hn)

/-- The chain of leaves depends on their links. -/
theorem Chain.congr {ih ih' : IxIndexHandle K} : ∀ {l : List ℤ} {prev : ℤ}, ih.Chain prev l →
    (∀ x ∈ l, ∀ n, ih.pages x = some n →
      ∃ n', ih'.pages x = some n' ∧ n'.prevLeaf = n.prevLeaf ∧ n'.nextLeaf = n.nextLeaf) → ih'.Chain prev l
  | [], _, _, _ => trivial
  | p :: rest, prev, ⟨⟨x, hx, hprev, hnext⟩, h⟩, hl => by
    obtain ⟨n', hn', h1, h2⟩ := hl p List.mem_cons_self x hx
    exact ⟨⟨n', hn', h1.trans hprev, h2.trans hnext⟩, h.congr fun x hx => hl x (List.mem_cons_of_mem _ hx)⟩

theorem Chain.congr_content {ih ih' : IxIndexHandle K} {l : List ℤ} {prev : ℤ} (h : ih.Chain prev l)
    (hl : ∀ x ∈ l, SameContent ih ih' x) : ih'.Chain prev l :=
  h.congr fun x hx n hn => by
    obtain ⟨r, hr⟩ := hl x hx n hn
    exact ⟨_, hr, rfl, rfl⟩

/-- A leaf depends on its entries. -/
theorem LeafOk.congr [LinearOrder K] {ih ih' : IxIndexHandle K} {l : Leaf K} (h : ih.LeafOk l)
    (hord : ih'.btreeOrder = ih.btreeOrder)
    (hpage : ∀ n, ih.pages l.page = some n →
      ∃ n', ih'.pages l.page = some n' ∧ n'.isLeaf = n.isLeaf ∧ n'.pairs = n.pairs) : ih'.LeafOk l := by
  obtain ⟨x, hx, hleaf, hpairs⟩ := h.node
  obtain ⟨x', hx', hleaf', hpairs'⟩ := hpage x hx
  refine ⟨⟨x', hx', hleaf'.trans hleaf, hpairs'.trans hpairs⟩, h.sorted, ?_, ?_⟩
  · have := h.size
    unfold maxSize at this ⊢
    rwa [hord]
  · rw [hord]
    exact h.fresh

theorem PagesOk.mono {ih ih' : IxIndexHandle K} {l : List ℤ} (h : ih.PagesOk l) (hle : ih.fd2pageno ≤ ih'.fd2pageno) :
    ih'.PagesOk l :=
  ⟨h.nodup, fun x hx => ⟨(h.range x hx).1, (h.range x hx).2.trans_le hle⟩⟩

end IxIndexHandle

end Rmdb.Index
