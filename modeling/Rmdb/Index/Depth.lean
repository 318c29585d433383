import Rmdb.Index.Header

/-!
# How high the tree is

A page of the tree has a level, which is counted from the leaves (`Leveled`). An insertion keeps the levels there are: a node is
split into two of its own level, and the children of the new one are a level below.

An inner node is made with two children, by a split of the root or of a node that is full, and it never loses one: `delete_entry`
takes pairs from leaves only. So the leaves are at least twice as many with each level, and the height is at most the binary logarithm
of the number of pages (`runOps_height`).
-/

namespace Rmdb.Index.IxIndexHandle

variable {K : Type}

/-- `R p r`: page `p` is `r` levels above the leaves. A parent is one level up, a child one level down, and no page is above level
`H`. -/
structure Leveled (ih : IxIndexHandle K) (R : ℤ → ℕ → Prop) (H : ℕ) : Prop where
  le : ∀ {p r}, R p r → r ≤ H
  unique : ∀ {p r r'}, R p r → R p r' → r = r'
  known : ∀ {p r}, R p r → p < ih.fd2pageno
  parent : ∀ {p r n}, R p r → ih.pages p = some n → n.parent = IX_NO_PAGE ∨ R n.parent (r + 1)
  leaf : ∀ {p r n}, R p r → ih.pages p = some n → (n.isLeaf = true ↔ r = 0)
  kids : ∀ {p r n}, R p r → ih.pages p = some n → n.isLeaf = false → ∀ e ∈ n.pairs, ∃ r', R e.2.pageNo r' ∧ r = r' + 1

section Steps

variable {ih ih' : IxIndexHandle K} {R : ℤ → ℕ → Prop} {H r : ℕ} {p q : ℤ} {n n₀ : Node K}

theorem setPage_self (ih : IxIndexHandle K) (p : ℤ) (n : Node K) : (ih.setPage p n).pages p = some n := Function.update_self ..

theorem setPage_of_ne {x : ℤ} (hx : x ≠ p) : (ih.setPage p n).pages x = ih.pages x := Function.update_of_ne hx ..

theorem createNode_of_ne {x : ℤ} (hx : x ≠ ih.fd2pageno) : ih.createNode.1.pages x = ih.pages x := Function.update_of_ne hx ..

/-- Only the pages and their number matter. -/
theorem Leveled.congr (h : ih.Leveled R H) (hpages : ih'.pages = ih.pages) (hcount : ih'.fd2pageno = ih.fd2pageno) :
    ih'.Leveled R H :=
  ⟨h.le, h.unique, fun hp => hcount ▸ h.known hp, fun hp hn => h.parent hp (hpages ▸ hn),
    fun hp hn => h.leaf hp (hpages ▸ hn), fun hp hn => h.kids hp (hpages ▸ hn)⟩

/-- A node is written whose parent and children are at its level. -/
theorem Leveled.setPage (h : ih.Leveled R H) (hparent : ∀ {r}, R p r → n.parent = IX_NO_PAGE ∨ R n.parent (r + 1))
    (hleaf : ∀ {r}, R p r → (n.isLeaf = true ↔ r = 0))
    (hkids : ∀ {r}, R p r → n.isLeaf = false → ∀ e ∈ n.pairs, ∃ r', R e.2.pageNo r' ∧ r = r' + 1) :
    (ih.setPage p n).Leveled R H := by
  have hcases : ∀ {x m}, (ih.setPage p n).pages x = some m → x = p ∧ m = n ∨ ih.pages x = some m := fun {x m} hm => by
    by_cases hxp : x = p
    · subst hxp
      exact Or.inl ⟨rfl, Option.some.inj (hm.symm.trans (setPage_self ih x n))⟩
    · exact Or.inr ((setPage_of_ne hxp).symm.trans hm)
  refine ⟨h.le, h.unique, h.known, fun hx hm => ?_, fun hx hm => ?_, fun hx hm => ?_⟩
  · rcases hcases hm with ⟨rfl, rfl⟩ | hm
    · exact hparent hx
    · exact h.parent hx hm
  · rcases hcases hm with ⟨rfl, rfl⟩ | hm
    · exact hleaf hx
    · exact h.leaf hx hm
  · rcases hcases hm with ⟨rfl, rfl⟩ | hm
    · exact hkids hx
    · exact h.kids hx hm

/-- A node is written that keeps its parent, and has no new children. -/
theorem Leveled.rewrite (h : ih.Leveled R H) (hn₀ : ih.pages p = some n₀) (hparent : n.parent = n₀.parent)
    (hleaf : n.isLeaf = n₀.isLeaf) (hpairs : ∀ e ∈ n.pairs, e ∈ n₀.pairs) : (ih.setPage p n).Leveled R H := by
  refine h.setPage (fun hp => ?_) (fun hp => ?_) fun hp hinner e he => h.kids hp hn₀ (hleaf ▸ hinner) e (hpairs e he)
  · rw [hparent]
    exact h.parent hp hn₀
  · rw [hleaf]
    exact h.leaf hp hn₀

/-- A node gets a parent of the level above it. -/
theorem Leveled.adopt (h : ih.Leveled R H) (hp : R p r) (hq : R q (r + 1))
    (hrun : ih.modifyPage p (fun n => { n with parent := q }) = some ih') : ih'.Leveled R H := by
  obtain ⟨n, hn, rfl⟩ := Option.map_eq_some_iff.mp hrun
  refine h.setPage (fun {r'} hp' => Or.inr ?_) (fun hp' => h.leaf (n := n) hp' hn) fun {r'} hp' hinner e he => ?_
  · rwa [← h.unique hp hp']
  · exact h.kids (n := n) hp' hn hinner e he

/-- A new page takes over some of the pairs of a node. -/
theorem Leveled.addPage (h : ih.Leveled R H) (hp : R p r) (hn₀ : ih.pages p = some n₀) (hparent : n.parent = n₀.parent)
    (hleaf : n.isLeaf = n₀.isLeaf) (hpairs : ∀ e ∈ n.pairs, e ∈ n₀.pairs) :
    (ih.createNode.1.setPage ih.fd2pageno n).Leveled (fun x s => R x s ∨ x = ih.fd2pageno ∧ s = r) H := by
  have hnew : ∀ {x s}, R x s → x ≠ ih.fd2pageno := fun hx => (h.known hx).ne
  have hold : ∀ {x m}, x ≠ ih.fd2pageno → (ih.createNode.1.setPage ih.fd2pageno n).pages x = some m → ih.pages x = some m := by
    intro x m hx hm
    rwa [setPage_of_ne hx, createNode_of_ne hx] at hm
  have hself := setPage_self ih.createNode.1 ih.fd2pageno n
  refine ⟨?_, ?_, ?_, ?_, ?_, ?_⟩
  · rintro x s (hx | ⟨-, rfl⟩)
    · exact h.le hx
    · exact h.le hp
  · rintro x s s' (hx | ⟨rfl, rfl⟩) (hx' | ⟨hx', rfl⟩)
    · exact h.unique hx hx'
    · exact absurd hx' (hnew hx)
    · exact absurd rfl (hnew hx')
    · rfl
  · have hcount : (ih.createNode.1.setPage ih.fd2pageno n).fd2pageno = ih.fd2pageno + 1 := rfl
    rintro x s (hx | ⟨rfl, -⟩)
    · have := h.known hx
      omega
    · omega
  · rintro x s m (hx | ⟨rfl, rfl⟩) hm
    · exact (h.parent hx (hold (hnew hx) hm)).imp_right Or.inl
    · obtain rfl := Option.some.inj (hself.symm.trans hm)
      rw [hparent]
      exact (h.parent hp hn₀).imp_right Or.inl
  · rintro x s m (hx | ⟨rfl, rfl⟩) hm
    · exact h.leaf hx (hold (hnew hx) hm)
    · obtain rfl := Option.some.inj (hself.symm.trans hm)
      rw [hleaf]
      exact h.leaf hp hn₀
  · rintro x s m (hx | ⟨rfl, rfl⟩) hm hinner e he
    · obtain ⟨s', hs', heq⟩ := h.kids hx (hold (hnew hx) hm) hinner e he
      exact ⟨s', Or.inl hs', heq⟩
    · obtain rfl := Option.some.inj (hself.symm.trans hm)
      obtain ⟨s', hs', heq⟩ := h.kids hp hn₀ (hleaf ▸ hinner) e (hpairs e he)
      exact ⟨s', Or.inl hs', heq⟩

theorem Leveled.maintainChild {i : ℕ} (h : ih.Leveled R H) (hp : R p r) (hrun : ih.maintainChild p i = some ih') :
    ih'.Leveled R H := by
  simp only [IxIndexHandle.maintainChild, Option.bind_eq_bind, Option.bind_eq_some_iff] at hrun
  obtain ⟨n, hn, hrun⟩ := hrun
  split at hrun
  · obtain rfl := Option.some.inj hrun
    exact h
  · rename_i hinner
    obtain ⟨c, hc, hrun⟩ := Option.bind_eq_some_iff.mp hrun
    obtain ⟨e, he, rfl⟩ := Option.map_eq_some_iff.mp hc
    obtain ⟨s, hs, rfl⟩ := h.kids hp hn (by simpa using hinner) e (List.mem_of_getElem? he)
    exact h.adopt hs hp hrun

theorem Leveled.foldlM_maintainChild : ∀ {l : List ℕ} {ih : IxIndexHandle K}, ih.Leveled R H → R p r →
    l.foldlM (fun ih i => ih.maintainChild p i) ih = some ih' → ih'.Leveled R H
  | [], _, h, _, hrun => by
    obtain rfl := Option.some.inj hrun
    exact h
  | _ :: _, _, h, hp, hrun => by
    rw [List.foldlM_cons] at hrun
    obtain ⟨ih₁, hstep, hrun⟩ := Option.bind_eq_some_iff.mp hrun
    exact (h.maintainChild hp hstep).foldlM_maintainChild hp hrun

/-- `split` makes a page of the same level. -/
theorem Leveled.split (h : ih.Leveled R H) (hp : R p r) (hrun : ih.split p = some (ih', q)) :
    ih'.Leveled (fun x s => R x s ∨ x = q ∧ s = r) H := by
  simp only [IxIndexHandle.split, Option.bind_eq_bind, Option.bind_eq_some_iff] at hrun
  obtain ⟨n, hn, newNode, hins, hrun⟩ := hrun
  obtain ⟨hleaf, hparent, hpairs⟩ : newNode.isLeaf = n.isLeaf ∧ newNode.parent = n.parent ∧ ∀ e ∈ newNode.pairs, e ∈ n.pairs := by
    unfold Node.insertPairs at hins
    split at hins
    · obtain rfl := Option.some.inj hins
      refine ⟨rfl, rfl, ?_⟩
      intro e he
      simp only [List.take_nil, List.nil_append, List.drop_nil, List.append_nil] at he
      exact List.mem_of_mem_drop he
    · cases hins
  have hpN : p ≠ ih.fd2pageno := (h.known hp).ne
  have hadded := h.addPage (n := newNode) hp hn hparent hleaf hpairs
  have hkept : ∀ m, (ih.createNode.1.setPage ih.fd2pageno m).pages p = some n := fun m => by
    rw [setPage_of_ne hpN, createNode_of_ne hpN]
    exact hn
  split at hrun
  · have hlinked := hadded.rewrite (n := { newNode with prevLeaf := p, nextLeaf := n.nextLeaf }) (setPage_self ..) rfl rfl
      fun e he => he
    have htwice : (ih.createNode.1.setPage ih.fd2pageno newNode).setPage ih.fd2pageno
        { newNode with prevLeaf := p, nextLeaf := n.nextLeaf } =
          ih.createNode.1.setPage ih.fd2pageno { newNode with prevLeaf := p, nextLeaf := n.nextLeaf } := by
      simp only [IxIndexHandle.setPage, Function.update_idem]
    rw [htwice] at hlinked
    split at hrun
    · obtain ⟨ih₁, hnext, hrun⟩ := Option.bind_eq_some_iff.mp hrun
      obtain ⟨rfl, rfl⟩ := Prod.mk.inj (Option.some.inj hrun)
      obtain ⟨m, hm, rfl⟩ := Option.map_eq_some_iff.mp hnext
      have hlinked' := hlinked.rewrite (n := { m with prevLeaf := ih.fd2pageno }) hm rfl rfl fun e he => he
      refine Leveled.congr (Leveled.setPage hlinked' (fun hx => ?_) (fun hx => ?_) fun hx hinner e he => ?_) rfl rfl
      · exact hlinked.parent (n := n) hx (hkept _)
      · exact hlinked.leaf (n := n) hx (hkept _)
      · exact hlinked.kids (n := n) hx (hkept _) hinner e (List.mem_of_mem_take he)
    · obtain ⟨rfl, rfl⟩ := Prod.mk.inj (Option.some.inj hrun)
      exact (hlinked.rewrite (n := { n with pairs := n.pairs.take (n.size / 2), nextLeaf := ih.fd2pageno }) (hkept _) rfl rfl
        fun e he => List.mem_of_mem_take he).congr rfl rfl
  · obtain ⟨ih₁, hfold, hrun⟩ := Option.bind_eq_some_iff.mp hrun
    obtain ⟨rfl, rfl⟩ := Prod.mk.inj (Option.some.inj hrun)
    have hhalf := hadded.rewrite (n := { n with pairs := n.pairs.take (n.size / 2) }) (hkept _) rfl rfl
      fun e he => List.mem_of_mem_take he
    exact hhalf.foldlM_maintainChild (Or.inr ⟨rfl, rfl⟩) hfold

/-- `insert_into_parent` puts the page to the right of a child into the parent. -/
theorem Leveled.link {parent parent' : Node K} {maxSize pos : ℕ} {key : K} (h : ih.Leveled R H) (hp : R p r) (hq : R q r)
    (hn : ih.pages p = some n) (hroot : n.parent ≠ IX_NO_PAGE) (hparent : ih.pages n.parent = some parent)
    (hins : parent.insertPair maxSize pos key ⟨q, -1⟩ = some parent')
    (hrun : (ih.setPage n.parent parent').modifyPage q (fun m => { m with parent := n.parent }) = some ih') :
    R n.parent (r + 1) ∧ ih'.Leveled R H := by
  have hup : R n.parent (r + 1) := (h.parent hp hn).resolve_left hroot
  refine ⟨hup, Leveled.adopt ?_ hq hup hrun⟩
  unfold Node.insertPair Node.insertPairs at hins
  split at hins
  · obtain rfl := Option.some.inj hins
    refine h.setPage (fun hx => h.parent (n := parent) hx hparent) (fun hx => h.leaf (n := parent) hx hparent) fun {s} hx hinner e he => ?_
    simp only [List.mem_append, List.mem_singleton] at he
    rcases he with (he | rfl) | he
    · exact h.kids hx hparent hinner e (List.mem_of_mem_take he)
    · exact ⟨r, hq, h.unique hx hup⟩
    · exact h.kids hx hparent hinner e (List.mem_of_mem_drop he)
  · cases hins

end Steps

/-! ### Nodes with two children -/

/-- Every inner node has at least two children. -/
structure Wide (ih : IxIndexHandle K) : Prop where
  order : 2 < ih.btreeOrder
  kids : ∀ {p n}, ih.pages p = some n → n.isLeaf = false → 2 ≤ n.size

/-- The order stays, no page is given back, and the inner nodes keep two children. -/
structure Grows (ih ih' : IxIndexHandle K) : Prop where
  order : ih'.btreeOrder = ih.btreeOrder
  count : ih.fd2pageno ≤ ih'.fd2pageno
  wide : ih.Wide → ih'.Wide

namespace Grows

variable {ih ih₁ ih' : IxIndexHandle K} {p q : ℤ} {n : Node K}

theorem refl (ih : IxIndexHandle K) : Grows ih ih := ⟨rfl, le_refl _, id⟩

theorem trans (h : Grows ih ih₁) (h' : Grows ih₁ ih') : Grows ih ih' :=
  ⟨h'.order.trans h.order, h.count.trans h'.count, fun hw => h'.wide (h.wide hw)⟩

/-- The ends of the leaves and the root do not matter. -/
theorem congr (horder : ih'.btreeOrder = ih.btreeOrder) (hpages : ih'.pages = ih.pages) (hcount : ih'.fd2pageno = ih.fd2pageno) :
    Grows ih ih' :=
  ⟨horder, hcount.ge, fun hw => ⟨horder ▸ hw.order, fun hn => hw.kids (hpages ▸ hn)⟩⟩

/-- A node is written. -/
theorem setPage (hn : ih.Wide → n.isLeaf = false → 2 ≤ n.size) : Grows ih (ih.setPage p n) := by
  refine ⟨rfl, le_refl _, fun hw => ⟨hw.order, fun {x m} hm hinner => ?_⟩⟩
  by_cases hx : x = p
  · subst hx
    obtain rfl := Option.some.inj ((setPage_self ih x n).symm.trans hm)
    exact hn hw hinner
  · exact hw.kids ((setPage_of_ne hx).symm.trans hm) hinner

/-- A new page is written. -/
theorem addPage (hn : ih.Wide → n.isLeaf = false → 2 ≤ n.size) : Grows ih (ih.createNode.1.setPage ih.fd2pageno n) := by
  refine ⟨rfl, Int.le_add_one (le_refl _), fun hw => ⟨hw.order, fun {x m} hm hinner => ?_⟩⟩
  by_cases hx : x = ih.fd2pageno
  · subst hx
    obtain rfl := Option.some.inj ((setPage_self ih.createNode.1 ih.fd2pageno n).symm.trans hm)
    exact hn hw hinner
  · rw [setPage_of_ne hx, createNode_of_ne hx] at hm
    exact hw.kids hm hinner

/-- A node keeps its kind and its pairs. -/
theorem modifyPage {f : Node K → Node K} (hrun : ih.modifyPage p f = some ih')
    (hf : ∀ n, (f n).isLeaf = n.isLeaf ∧ (f n).pairs = n.pairs) : Grows ih ih' := by
  obtain ⟨n, hn, rfl⟩ := Option.map_eq_some_iff.mp hrun
  refine setPage ?_
  intro hw hinner
  rw [Node.size, (hf n).2]
  exact hw.kids hn ((hf n).1.symm.trans hinner)

theorem maintainChild {i : ℕ} (hrun : ih.maintainChild p i = some ih') : Grows ih ih' := by
  simp only [IxIndexHandle.maintainChild, Option.bind_eq_bind, Option.bind_eq_some_iff] at hrun
  obtain ⟨node, -, hrun⟩ := hrun
  split at hrun
  · obtain rfl := Option.some.inj hrun
    exact refl ih
  · obtain ⟨child, -, hrun⟩ := Option.bind_eq_some_iff.mp hrun
    exact modifyPage hrun fun _ => ⟨rfl, rfl⟩

theorem foldlM_maintainChild : ∀ {l : List ℕ} {ih : IxIndexHandle K},
    l.foldlM (fun ih i => ih.maintainChild p i) ih = some ih' → Grows ih ih'
  | [], ih, hrun => by
    obtain rfl := Option.some.inj hrun
    exact refl _
  | i :: l, ih, hrun => by
    rw [List.foldlM_cons] at hrun
    obtain ⟨ih₁, hstep, hrun⟩ := Option.bind_eq_some_iff.mp hrun
    exact (maintainChild hstep).trans (foldlM_maintainChild hrun)

/-- `split` allocates a page. -/
theorem split_count (hrun : ih.split p = some (ih', q)) : q = ih.fd2pageno ∧ ih.fd2pageno + 1 ≤ ih'.fd2pageno := by
  simp only [IxIndexHandle.split, Option.bind_eq_bind, Option.bind_eq_some_iff] at hrun
  obtain ⟨n, -, newNode, -, hrun⟩ := hrun
  split at hrun
  · split at hrun
    · obtain ⟨ih₁, hnext, hrun⟩ := Option.bind_eq_some_iff.mp hrun
      obtain ⟨rfl, rfl⟩ := Prod.mk.inj (Option.some.inj hrun)
      exact ⟨rfl, (modifyPage hnext fun _ => ⟨rfl, rfl⟩).count⟩
    · obtain ⟨rfl, rfl⟩ := Prod.mk.inj (Option.some.inj hrun)
      exact ⟨rfl, le_refl _⟩
  · obtain ⟨ih₁, hfold, hrun⟩ := Option.bind_eq_some_iff.mp hrun
    obtain ⟨rfl, rfl⟩ := Prod.mk.inj (Option.some.inj hrun)
    exact ⟨rfl, (foldlM_maintainChild hfold).count⟩

/-- A full node is split. -/
theorem split (hn : ih.pages p = some n) (hfull : ih.maxSize ≤ n.size) (hrun : ih.split p = some (ih', q)) : Grows ih ih' := by
  simp only [IxIndexHandle.split, Option.bind_eq_bind, Option.bind_eq_some_iff] at hrun
  obtain ⟨m, hm, newNode, hins, hrun⟩ := hrun
  obtain rfl := Option.some.inj (hn.symm.trans hm)
  -- both halves of a full node have two pairs
  have hhalves : ih.Wide → 2 ≤ n.size / 2 ∧ 2 ≤ n.size - n.size / 2 := fun hw => by
    have := hw.order
    unfold maxSize at hfull
    omega
  have hnew : ih.Wide → 2 ≤ newNode.size := fun hw => by
    unfold Node.insertPairs at hins
    split at hins
    · obtain rfl := Option.some.inj hins
      have := (hhalves hw).2
      unfold Node.size at this ⊢
      simp only [List.take_nil, List.drop_nil, List.nil_append, List.append_nil, List.length_drop]
      exact this
    · cases hins
  have hold : ih.Wide → 2 ≤ (n.pairs.take (n.size / 2)).length := fun hw => by
    have := (hhalves hw).1
    rw [List.length_take]
    unfold Node.size at this ⊢
    omega
  have hwritten : ∀ {ih₁ : IxIndexHandle K} {m : Node K}, (ih.Wide → 2 ≤ m.size) → Grows ih ih₁ → Grows ih (ih₁.setPage p m) :=
    fun {ih₁ m} hsize hgrows => ⟨hgrows.order, hgrows.count, fun hw => (setPage fun _ _ => hsize hw).wide (hgrows.wide hw)⟩
  split at hrun
  · split at hrun
    · obtain ⟨ih₁, hnext, hrun⟩ := Option.bind_eq_some_iff.mp hrun
      obtain ⟨rfl, -⟩ := Prod.mk.inj (Option.some.inj hrun)
      have hlinked := (addPage (n := { newNode with prevLeaf := p, nextLeaf := n.nextLeaf }) fun hw _ => hnew hw).trans
        (modifyPage hnext fun _ => ⟨rfl, rfl⟩)
      exact (hwritten (m := { n with pairs := n.pairs.take (n.size / 2), nextLeaf := ih.fd2pageno }) hold hlinked).trans
        (congr rfl rfl rfl)
    · obtain ⟨rfl, -⟩ := Prod.mk.inj (Option.some.inj hrun)
      exact (hwritten (m := { n with pairs := n.pairs.take (n.size / 2), nextLeaf := ih.fd2pageno }) hold
        (addPage (n := { newNode with prevLeaf := p, nextLeaf := n.nextLeaf }) fun hw _ => hnew hw)).trans (congr rfl rfl rfl)
  · obtain ⟨ih₁, hfold, hrun⟩ := Option.bind_eq_some_iff.mp hrun
    obtain ⟨rfl, -⟩ := Prod.mk.inj (Option.some.inj hrun)
    exact (hwritten (m := { n with pairs := n.pairs.take (n.size / 2) }) hold (addPage fun hw _ => hnew hw)).trans
      (foldlM_maintainChild hfold)

theorem size_insertPair {maxSize pos : ℕ} {n n' : Node K} {key : K} {rid : Rid} (h : n.insertPair maxSize pos key rid = some n') :
    n'.isLeaf = n.isLeaf ∧ n'.size = n.size + 1 := by
  unfold Node.insertPair Node.insertPairs at h
  split at h
  · rename_i hpos
    obtain rfl := Option.some.inj h
    refine ⟨rfl, ?_⟩
    have := hpos.1
    unfold Node.size at this ⊢
    simp only [List.length_append, List.length_take, List.length_drop, List.length_singleton]
    omega
  · cases h

theorem insertIntoParent : ∀ {bound : ℕ} {ih : IxIndexHandle K} {p q : ℤ} {key : K},
    IxIndexHandle.insertIntoParent bound ih p key q = some ih' → Grows ih ih'
  | 0, _, _, _, _, hrun => by cases hrun
  | bound + 1, ih, p, q, key, hrun => by
    simp only [IxIndexHandle.insertIntoParent, Option.bind_eq_bind, Option.bind_eq_some_iff] at hrun
    obtain ⟨oldNode, -, newNode, -, hrun⟩ := hrun
    split at hrun
    · simp only [Option.bind_eq_some_iff] at hrun
      obtain ⟨oldKey, -, newKey, -, rootNode, hroot, rootNode', hroot', ih₁, h₁, ih₂, h₂, hrun⟩ := hrun
      obtain rfl := Option.some.inj hrun
      have hsize : rootNode'.size = 2 := by rw [(size_insertPair hroot').2, (size_insertPair hroot).2]; rfl
      have hadded : Grows ih (ih.createNode.1.setPage ih.fd2pageno rootNode') := addPage fun _ _ => hsize.ge
      exact ((hadded.trans (modifyPage h₁ fun _ => ⟨rfl, rfl⟩)).trans (modifyPage h₂ fun _ => ⟨rfl, rfl⟩)).trans (congr rfl rfl rfl)
    · simp only [Option.bind_eq_some_iff] at hrun
      obtain ⟨parent, hparent, pos, -, parent', hins, ih₁, h₁, hrun⟩ := hrun
      obtain ⟨hleaf, hsize⟩ := size_insertPair hins
      have hset : Grows ih (ih.setPage oldNode.parent parent') := setPage fun hw hinner => by
        have := hw.kids hparent (hleaf.symm.trans hinner)
        omega
      have hlink := hset.trans (modifyPage h₁ fun _ => ⟨rfl, rfl⟩)
      split at hrun
      · rename_i hfull
        simp only [Option.bind_eq_some_iff] at hrun
        obtain ⟨⟨ih₂, newParent⟩, h₂, node, -, newKey, -, hrun⟩ := hrun
        obtain ⟨m, hm, rfl⟩ := Option.map_eq_some_iff.mp h₁
        -- the parent has the size that has been tested
        have hpage : ∃ m', ((ih.setPage oldNode.parent parent').setPage q { m with parent := oldNode.parent }).pages oldNode.parent =
            some m' ∧ m'.size = parent'.size := by
          by_cases hq : oldNode.parent = q
          · subst hq
            obtain rfl := Option.some.inj ((setPage_self ih oldNode.parent parent').symm.trans hm)
            exact ⟨_, setPage_self .., rfl⟩
          · exact ⟨parent', (setPage_of_ne hq).trans (setPage_self ..), rfl⟩
        obtain ⟨m', hm', hsame⟩ := hpage
        exact (hlink.trans (split hm' (hsame ▸ hfull) h₂)).trans (insertIntoParent hrun)
      · obtain rfl := Option.some.inj hrun
        exact hlink

variable [LinearOrder K]

theorem maintainParent : ∀ {bound : ℕ} {ih : IxIndexHandle K} {p : ℤ},
    IxIndexHandle.maintainParent bound ih p = some ih' → Grows ih ih'
  | 0, _, _, hrun => by cases hrun
  | bound + 1, ih, p, hrun => by
    simp only [IxIndexHandle.maintainParent, Option.bind_eq_bind, Option.bind_eq_some_iff] at hrun
    obtain ⟨node, -, hrun⟩ := hrun
    split at hrun
    · obtain rfl := Option.some.inj hrun
      exact refl ih
    · simp only [Option.bind_eq_some_iff] at hrun
      obtain ⟨parent, hparent, rank, -, parentKey, -, childKey, -, hrun⟩ := hrun
      split at hrun
      · obtain rfl := Option.some.inj hrun
        exact refl ih
      · refine (setPage (n := parent.setKey rank childKey) ?_).trans (maintainParent hrun)
        intro hw hinner
        rw [Node.size, Node.setKey, List.length_modify]
        exact hw.kids hparent hinner

/-- The loop of `find_leaf_page` begins with a page that is there. -/
theorem exists_of_findLeafLoop {key : K} {findFirst : Bool} {leaf : ℤ} {bound : ℕ} {p : ℤ}
    (hrun : ih.findLeafLoop key findFirst bound p = some leaf) : ∃ n, ih.pages p = some n := by
  cases bound with
  | zero => cases hrun
  | succ bound =>
    simp only [findLeafLoop, Option.bind_eq_bind, Option.bind_eq_some_iff] at hrun
    obtain ⟨n, hn, -⟩ := hrun
    exact ⟨n, hn⟩

/-- It ends at a leaf. -/
theorem findLeafLoop_isLeaf {key : K} {findFirst : Bool} {leaf : ℤ} : ∀ {bound : ℕ} {p : ℤ},
    ih.findLeafLoop key findFirst bound p = some leaf → ∃ n, ih.pages leaf = some n ∧ n.isLeaf = true
  | 0, _, hrun => by cases hrun
  | bound + 1, p, hrun => by
    simp only [findLeafLoop, Option.bind_eq_bind, Option.bind_eq_some_iff] at hrun
    obtain ⟨node, hnode, hrun⟩ := hrun
    split at hrun
    · obtain rfl := Option.some.inj hrun
      exact ⟨node, hnode, ‹_›⟩
    · split at hrun
      all_goals
        obtain ⟨child, -, hrun⟩ := Option.bind_eq_some_iff.mp hrun
        exact findLeafLoop_isLeaf hrun

theorem findLeafPage_isLeaf {key : K} {findFirst : Bool} {leaf : ℤ} (hrun : ih.findLeafPage key findFirst = some (some leaf)) :
    ∃ n, ih.pages leaf = some n ∧ n.isLeaf = true := by
  unfold findLeafPage at hrun
  split at hrun
  · cases hrun
  · obtain ⟨p, hp, heq⟩ := Option.map_eq_some_iff.mp hrun
    obtain rfl := Option.some.inj heq
    exact findLeafLoop_isLeaf hp

theorem insertEntry {key : K} {value : Rid} {leaf : ℤ} (hrun : ih.insertEntry key value = some (ih', leaf)) : Grows ih ih' := by
  simp only [IxIndexHandle.insertEntry, Option.bind_eq_bind, Option.bind_eq_some_iff] at hrun
  obtain ⟨found, -, page, -, node, hnode, node', hins, hrun⟩ := hrun
  split at hrun
  · obtain ⟨rfl, -⟩ := Prod.mk.inj (Option.some.inj hrun)
    exact refl _
  · have hset : Grows ih (ih.setPage page node') := by
      refine setPage ?_
      intro hw hinner
      unfold Node.insert at hins
      split at hins
      · obtain rfl := Option.some.inj hins
        exact hw.kids hnode hinner
      · obtain ⟨hleaf, hsize⟩ := size_insertPair hins
        have := hw.kids hnode (hleaf.symm.trans hinner)
        omega
    split at hrun
    · rename_i hfull
      simp only [Option.bind_eq_some_iff] at hrun
      obtain ⟨⟨ih₁, newLeaf⟩, h₁, node₁, -, newKey, -, ih₂, h₂, hrun⟩ := hrun
      obtain ⟨rfl, -⟩ := Prod.mk.inj (Option.some.inj hrun)
      exact (hset.trans (split (setPage_self ..) hfull h₁)).trans (insertIntoParent h₂)
    · simp only [Option.bind_eq_some_iff] at hrun
      obtain ⟨ih₁, h₁, hrun⟩ := hrun
      obtain ⟨rfl, -⟩ := Prod.mk.inj (Option.some.inj hrun)
      exact hset.trans (maintainParent h₁)

theorem deleteEntry {key : K} {b : Bool} (hrun : ih.deleteEntry key = some (ih', b)) : Grows ih ih' := by
  simp only [IxIndexHandle.deleteEntry, Option.bind_eq_bind, Option.bind_eq_some_iff] at hrun
  obtain ⟨found, hfound, hrun⟩ := hrun
  rcases found with _ | leaf
  · obtain ⟨rfl, -⟩ := Prod.mk.inj (Option.some.inj hrun)
    exact refl _
  · simp only [Option.bind_eq_some_iff] at hrun
    obtain ⟨node, hnode, node', hrem, hrun⟩ := hrun
    obtain ⟨m, hm, hleaf⟩ := findLeafPage_isLeaf hfound
    obtain rfl := Option.some.inj (hnode.symm.trans hm)
    -- only a leaf loses a pair
    have hset : Grows ih (ih.setPage leaf node') := by
      refine setPage ?_
      intro hw hinner
      have hsame : node'.isLeaf = node.isLeaf := by
        unfold Node.remove Node.erasePair at hrem
        split at hrem
        · split at hrem
          · obtain rfl := Option.some.inj hrem
            rfl
          · cases hrem
        · obtain rfl := Option.some.inj hrem
          rfl
      rw [hsame, hleaf] at hinner
      cases hinner
    split at hrun
    · obtain ⟨rfl, -⟩ := Prod.mk.inj (Option.some.inj hrun)
      exact refl _
    · split at hrun
      · simp only [Option.bind_eq_some_iff] at hrun
        obtain ⟨ih₁, h₁, hrun⟩ := hrun
        obtain ⟨rfl, -⟩ := Prod.mk.inj (Option.some.inj hrun)
        exact hset.trans (maintainParent h₁)
      · obtain ⟨rfl, -⟩ := Prod.mk.inj (Option.some.inj hrun)
        exact hset

theorem apply {op : Op K} (hrun : op.apply ih = some ih') : Grows ih ih' := by
  cases op with
  | insert key value =>
    obtain ⟨⟨ih₁, leaf⟩, h₁, rfl⟩ := Option.map_eq_some_iff.mp hrun
    exact insertEntry h₁
  | delete key =>
    obtain ⟨⟨ih₁, b⟩, h₁, rfl⟩ := Option.map_eq_some_iff.mp hrun
    exact deleteEntry h₁

theorem runOps : ∀ {ops : List (Op K)} {ih : IxIndexHandle K}, Index.runOps ih ops = some ih' → Grows ih ih'
  | [], ih, hrun => by
    obtain rfl := Option.some.inj hrun
    exact refl _
  | op :: ops, ih, hrun => by
    unfold Index.runOps at hrun
    rw [List.foldlM_cons] at hrun
    obtain ⟨ih₁, hstep, hrun⟩ := Option.bind_eq_some_iff.mp hrun
    exact (apply hstep).trans (runOps hrun)

end Grows

/-! ### The levels of a tree -/

section Tree

variable {ih : IxIndexHandle K} {lv : List (Leaf K)} {lvls : List (List (Inner K))}

/-- The root has no parent. -/
theorem Up.root_parent : ∀ {lvls : List (List (Inner K))} {cur : List (K × ℤ)}, ih.Up cur lvls → ih.HasParent ih.rootPage IX_NO_PAGE
  | [], _, ⟨_, _, h⟩ => h
  | _ :: _, _, ⟨_, _, h⟩ => h.root_parent

theorem HasParent.unique {p q q' : ℤ} (h : ih.HasParent p q) (h' : ih.HasParent p q') : q = q' := by
  obtain ⟨x, hx, rfl⟩ := h
  obtain ⟨y, hy, rfl⟩ := h'
  rw [Option.some.inj (hx.symm.trans hy)]

theorem two_mul_length_le : ∀ lvl : List (Inner K), (∀ n ∈ lvl, 2 ≤ n.kids.length) → 2 * lvl.length ≤ (lvl.flatMap (·.kids)).length
  | [], _ => le_refl _
  | n :: lvl, h => by
    have hind := two_mul_length_le lvl fun m hm => h m (List.mem_cons_of_mem _ hm)
    have hn := h n List.mem_cons_self
    rw [List.flatMap_cons, List.length_append, List.length_cons]
    omega

/-- Each level has twice as many nodes as the one above it. -/
theorem Up.pow_le (hw : ih.Wide) : ∀ {lvls : List (List (Inner K))} {cur : List (K × ℤ)}, ih.Up cur lvls → 2 ^ lvls.length ≤ cur.length
  | [], _, ⟨_, rfl, _⟩ => by simp
  | lvl :: rest, _, ⟨rfl, hok, hrest⟩ => by
    have hind := Up.pow_le hw hrest
    rw [List.length_map] at hind
    have hkids : ∀ n ∈ lvl, 2 ≤ n.kids.length := fun n hn => by
      obtain ⟨x, hx, hinner, hpairs⟩ := (hok n hn).node
      have hsize := hw.kids hx hinner
      rwa [Node.size, hpairs, List.length_map] at hsize
    have hsum := two_mul_length_le lvl hkids
    rw [List.length_cons, Nat.pow_succ]
    omega

variable [LinearOrder K]

/-- A page of the tree is an allocated one. -/
theorem Inv.desc_range (h : ih.Inv lv lvls) {d : ℕ} {p : ℤ} (hd : ih.Desc d ih.rootPage p) : 2 ≤ p ∧ p < ih.fd2pageno := by
  refine h.pages.range p ?_
  rcases h.desc_cases hd with ⟨-, lvl, hlvl, n, hn, rfl⟩ | ⟨-, l, hl, rfl⟩
  · exact List.mem_append_right _ (List.mem_map_of_mem (List.mem_flatten.mpr ⟨lvl, hlvl, hn⟩))
  · exact List.mem_append_left _ (List.mem_map_of_mem hl)

/-- A page below another names it as its parent. -/
theorem Inv.child_parent (h : ih.Inv lv lvls) {d : ℕ} {p q : ℤ} (hd : ih.Desc d ih.rootPage p) (hc : ih.Child p q) :
    ih.HasParent q p := by
  obtain ⟨n, hn, hinner, e, he, rfl⟩ := hc
  exact (h.wellFormed.child p n ⟨⟨d, hd⟩, hn⟩ hinner e he).1

/-- A page is in one level. -/
theorem Inv.desc_unique (h : ih.Inv lv lvls) : ∀ {d d' : ℕ} {p : ℤ}, ih.Desc d ih.rootPage p → ih.Desc d' ih.rootPage p → d = d' := by
  have hroot : ∀ {d : ℕ} {q : ℤ}, ih.Desc d ih.rootPage q → ¬ ih.Child q ih.rootPage := by
    intro d q hd hc
    have hno := (h.child_parent hd hc).unique h.up.root_parent
    have := (h.desc_range hd).1
    unfold IX_NO_PAGE at hno
    omega
  intro d
  induction d with
  | zero =>
    intro d' p hd hd'
    cases hd
    cases hd' with
    | refl => rfl
    | step hq hc => exact absurd hc (hroot hq)
  | succ d ih =>
    intro d' p hd hd'
    obtain _ | ⟨hq, hc⟩ := hd
    cases hd' with
    | refl => exact absurd hc (hroot hq)
    | step hq' hc' =>
      have heq := (h.child_parent hq hc).unique (h.child_parent hq' hc')
      subst heq
      rw [ih hq hq']

/-- The leaves are the pages at the end of the paths. -/
theorem Inv.leaf_iff (h : ih.Inv lv lvls) {d : ℕ} {p : ℤ} {n : Node K} (hd : ih.Desc d ih.rootPage p) (hn : ih.pages p = some n) :
    n.isLeaf = true ↔ d = lvls.length := by
  rcases h.node_cases ⟨⟨d, hd⟩, hn⟩ with ⟨hinner, lvl, hlvl, m, hm, rfl, -⟩ | ⟨hleaf, -⟩
  · refine iff_of_false (by rw [hinner]; exact Bool.false_ne_true) ?_
    rintro rfl
    obtain ⟨l, hl, hpage⟩ := h.leaf_of_depth hd
    obtain ⟨x, hx, hleaf, -⟩ := (h.leaves l hl).node
    rw [hpage, hn] at hx
    obtain rfl := Option.some.inj hx
    rw [hleaf] at hinner
    cases hinner
  · refine iff_of_true hleaf ?_
    rcases h.desc_cases hd with ⟨-, lvl, hlvl, m, hm, rfl⟩ | ⟨heq, -⟩
    · obtain ⟨y, hy, hinner, -⟩ := (h.up.innerOk hlvl hm).node
      obtain rfl := Option.some.inj (hn.symm.trans hy)
      rw [hleaf] at hinner
      cases hinner
    · exact heq

/-- **The levels of a tree.** -/
theorem Inv.leveled (h : ih.Inv lv lvls) : ih.Leveled (fun p r => ∃ d, ih.Desc d ih.rootPage p ∧ d + r = lvls.length) lvls.length := by
  refine ⟨?_, ?_, ?_, ?_, ?_, ?_⟩
  · rintro p r ⟨d, -, hdr⟩
    omega
  · rintro p r r' ⟨d, hd, hdr⟩ ⟨d', hd', hdr'⟩
    have := h.desc_unique hd hd'
    omega
  · rintro p r ⟨d, hd, -⟩
    exact (h.desc_range hd).2
  · rintro p r n ⟨d, hd, hdr⟩ hn
    cases hd with
    | refl =>
      obtain ⟨m, hm, hno⟩ := h.up.root_parent
      rw [Option.some.inj (hn.symm.trans hm)]
      exact Or.inl hno
    | @step d p q r hq hc =>
      obtain ⟨m, hm, rfl⟩ := h.child_parent hq hc
      rw [Option.some.inj (hn.symm.trans hm)]
      exact Or.inr ⟨d, hq, by omega⟩
  · rintro p r n ⟨d, hd, hdr⟩ hn
    rw [h.leaf_iff hd hn]
    exact ⟨fun heq => by omega, fun heq => by omega⟩
  · rintro p r n ⟨d, hd, hdr⟩ hn hinner e he
    have hchild : ih.Desc (d + 1) ih.rootPage e.2.pageNo := .step hd ⟨n, hn, hinner, e, he, rfl⟩
    have hle := h.desc_le hchild
    exact ⟨r - 1, ⟨d + 1, hchild, by omega⟩, by omega⟩

/-- No leaf is its own successor. -/
theorem Inv.nextLeaf_ne (h : ih.Inv lv lvls) {l : Leaf K} (hl : l ∈ lv) {n : Node K} (hn : ih.pages l.page = some n) :
    n.nextLeaf ≠ l.page := by
  obtain ⟨A, B, rfl⟩ := List.append_of_mem hl
  have hchain := h.chain
  have hnd := h.nodup_pages
  rw [List.map_append, List.map_cons] at hchain hnd
  rw [hchain.nextLeaf_eq hn]
  cases B with
  | nil =>
    have := (h.pages.range l.page (by simp)).1
    simp only [List.map_nil, List.headD_nil, IX_LEAF_HEADER_PAGE]
    omega
  | cons b B =>
    intro heq
    have hout := (List.nodup_cons.mp (List.nodup_append.mp hnd).2.1).1
    rw [← heq] at hout
    exact hout List.mem_cons_self

/-- Where `find_leaf_page` lands. -/
theorem Inv.found (h : ih.Inv lv lvls) {key : K} {p : ℤ} (hrun : ih.findLeafPage key false = some (some p)) :
    ih.Desc lvls.length ih.rootPage p ∧ ∀ {n}, ih.pages p = some n → n.isLeaf = true ∧ n.nextLeaf ≠ p := by
  obtain ⟨A, l, B, hin, hfound⟩ := findLeafPage_eq h key
  obtain rfl := Option.some.inj (Option.some.inj (hfound.symm.trans hrun))
  have hl : l ∈ lv := by
    rw [hin.split]
    simp
  obtain ⟨x, ⟨⟨d, hd⟩, hx⟩, hleaf, -⟩ := h.nodeAt_leaf hl
  obtain rfl := (h.leaf_iff hd hx).mp hleaf
  exact ⟨hd, fun {n} hn => ⟨(h.leaf_iff hd hn).mpr rfl, h.nextLeaf_ne hl hn⟩⟩

theorem Inv.pow_le (h : ih.Inv lv lvls) (hw : ih.Wide) : (2 ^ lvls.length : ℤ) < ih.fd2pageno := by
  have hpow := Up.pow_le hw h.up
  have hcount := h.count_lt
  rw [List.length_map] at hpow
  have : ((2 ^ lvls.length : ℕ) : ℤ) < ih.fd2pageno := by omega
  exact_mod_cast this

end Tree

theorem createIndex_wide {order : ℕ} (h : 2 < order) : (createIndex order : IxIndexHandle K).Wide := by
  refine ⟨h, fun {p n} hn hinner => ?_⟩
  unfold createIndex at hn
  simp only at hn
  split at hn
  · obtain rfl := Option.some.inj hn
    cases hinner
  · split at hn
    · obtain rfl := Option.some.inj hn
      cases hinner
    · cases hn

/-- **The tree is balanced and low**: all leaves are equally deep, and as deep as the binary logarithm of the number of pages at
most. -/
theorem runOps_height [LinearOrder K] [Inhabited K] (order : ℕ) (horder : 2 < order) (ops : List (Op K)) :
    ∃ ih, runOps (createIndex order) ops = some ih ∧ ∃ height : ℕ, (2 ^ height : ℤ) < ih.fd2pageno ∧
      ∀ d p n, ih.Desc d ih.rootPage p → ih.pages p = some n → d ≤ height ∧ (n.isLeaf = true ↔ d = height) := by
  obtain ⟨ih, lv, lvls, hrun, hinv, -⟩ := run_inv ops (createIndex_inv horder (default : K))
  have hwide := (Grows.runOps hrun).wide (createIndex_wide horder)
  exact ⟨ih, hrun, lvls.length, hinv.pow_le hwide, fun d p n hd hn => ⟨hinv.desc_le hd, hinv.leaf_iff hd hn⟩⟩

theorem runOps_height_three : ∃ ih, runOps (createIndex 3) [Op.insert (7 : ℤ) ⟨1, 0⟩] = some ih ∧
    ∃ height : ℕ, (2 ^ height : ℤ) < ih.fd2pageno ∧
      ∀ d p n, ih.Desc d ih.rootPage p → ih.pages p = some n → d ≤ height ∧ (n.isLeaf = true ↔ d = height) :=
  runOps_height 3 (by decide) [Op.insert 7 ⟨1, 0⟩]

end Rmdb.Index.IxIndexHandle
