import Rmdb.Index.Shape

/-!
# Climbing the tree

What the operations that walk from a node up to the root do to the inner levels:
`maintain_parent` replaces the separator above a node by the node's first key and
leaves the rest alone (`maintainParent_up`); `split` halves a node
(`split_inner`, `split_leaf`); `insert_into_parent` puts a new node to the right of an
old one, splitting full parents on its way up and growing a new root at the top
(`insertIntoParent_up`).

A node and the nodes above it are a situation of its own (`Above`), and so is the insertion of a new node next to
an old one (`Linking`). The two walks are inductions on the way up whose step is one lemma about
such a situation for each part of the tree.
-/

namespace Rmdb.Index

open Lib

/-- Where an element of a concatenation is. -/
theorem flatMap_eq_append_cons {α β : Type} {f : α → List β} {U V : List β} {x : β} :
    ∀ {L : List α}, L.flatMap f = U ++ x :: V →
      ∃ L₁ b L₂ A B, L = L₁ ++ b :: L₂ ∧ f b = A ++ x :: B ∧ U = L₁.flatMap f ++ A ∧ V = B ++ L₂.flatMap f
  | [], h => by simp at h
  | a :: L, h => by
    rw [List.flatMap_cons] at h
    rcases List.append_eq_append_iff.mp h with ⟨U', rfl, hL⟩ | ⟨C, hC, hV⟩
    · obtain ⟨L₁, b, L₂, A, B, rfl, hb, rfl, rfl⟩ := flatMap_eq_append_cons hL
      exact ⟨a :: L₁, b, L₂, A, B, rfl, hb, by simp, rfl⟩
    · cases C with
      | nil =>
        -- the element is the first of the rest
        simp only [List.append_nil] at hC
        have hL : L.flatMap f = [] ++ x :: V := by simpa using hV.symm
        obtain ⟨L₁, b, L₂, A, B, rfl, hb, hA, rfl⟩ := flatMap_eq_append_cons hL
        refine ⟨a :: L₁, b, L₂, A, B, rfl, hb, ?_, rfl⟩
        rw [List.flatMap_cons, List.append_assoc, ← hA, List.append_nil, hC]
      | cons y C =>
        simp only [List.cons_append, List.cons.injEq] at hV
        obtain ⟨rfl, rfl⟩ := hV
        exact ⟨[], a, L, U, C, rfl, hC, rfl, rfl⟩

variable {K : Type}

namespace Node

theorem findChild_slot {n : Node K} {A B : List (K × ℤ)} {k : K} {p : ℤ}
    (hn : n.pairs = (A ++ (k, p) :: B).map slot) (hA : p ∉ A.map (·.2)) : n.findChild p = some A.length := by
  unfold findChild
  rw [hn, List.findIdx?_eq_some_iff_getElem]
  refine ⟨by simp, by simp [slot], ?_⟩
  intro j hj
  have hmem : (A[j]).2 ∈ A.map (·.2) := List.mem_map_of_mem (List.getElem_mem hj)
  simp only [List.map_append, List.map_cons, slot, decide_eq_true_eq]
  rw [List.getElem_append_left (by simpa using hj), List.getElem_map]
  intro h
  exact hA (h ▸ hmem)

theorem keyAt_slot {n : Node K} {A B : List (K × ℤ)} {k : K} {p : ℤ}
    (hn : n.pairs = (A ++ (k, p) :: B).map slot) : n.keyAt A.length = some k := by
  unfold keyAt
  rw [hn]
  simp [slot]

theorem setKey_slot {n : Node K} {A B : List (K × ℤ)} {k f : K} {p : ℤ}
    (hn : n.pairs = (A ++ (k, p) :: B).map slot) :
    (n.setKey A.length f).pairs = (A ++ (f, p) :: B).map slot := by
  simp only [setKey]
  rw [hn, List.modify_eq_set_getElem?]
  simp [slot]

theorem insertPair_slot {n : Node K} {A B : List (K × ℤ)} {k key : K} {p q : ℤ} {M : ℕ}
    (hn : n.pairs = (A ++ (k, p) :: B).map slot) (hlen : (A ++ (k, p) :: (key, q) :: B).length ≤ M) :
    n.insertPair M (A.length + 1) key ⟨q, -1⟩ = some { n with pairs := (A ++ (k, p) :: (key, q) :: B).map slot } := by
  have hsplit : n.pairs = (A ++ [(k, p)]).map slot ++ B.map slot := by
    rw [hn, ← List.map_append, List.append_assoc]
    rfl
  have hA : ((A ++ [(k, p)]).map slot).length = A.length + 1 := by simp
  unfold insertPair insertPairs size
  rw [hsplit, if_pos]
  · rw [List.take_left' hA, List.drop_left' hA]
    simp [slot]
  · simp only [List.length_append, List.length_map, List.length_cons, List.length_nil] at hlen ⊢
    omega

end Node

namespace IxIndexHandle

/-- The top level is the root alone. -/
theorem root_eq {U V : List (K × ℤ)} {k k₀ : K} {p r : ℤ} (h : U ++ (k, p) :: V = [(k₀, r)]) :
    U = [] ∧ k = k₀ ∧ p = r ∧ V = [] := by
  cases U with
  | nil =>
    obtain ⟨h1, h2⟩ := List.cons.inj h
    obtain ⟨rfl, rfl⟩ := Prod.mk.inj h1
    exact ⟨rfl, rfl, rfl, h2⟩
  | cons u U => simp at h

/-! ### Disjoint pages -/

section Pages

variable {ih : IxIndexHandle K} {cur : List (K × ℤ)} {lvl : List (Inner K)} {rest : List (List (Inner K))}

theorem PagesOk.level (h : ih.PagesOk (cur.map (·.2) ++ upPages (lvl :: rest))) :
    ih.PagesOk ((lvl.map Inner.link).map (·.2) ++ upPages rest) := by
  have hsub : ((lvl.map Inner.link).map (·.2) ++ upPages rest).Sublist (cur.map (·.2) ++ upPages (lvl :: rest)) := by
    rw [upPages_cons, List.map_map]
    exact List.sublist_append_right _ _
  exact ⟨h.nodup.sublist hsub, fun x hx => h.range x (hsub.subset hx)⟩

theorem PagesOk.cur_notMem (h : ih.PagesOk (cur.map (·.2) ++ upPages rest)) {e : K × ℤ} (he : e ∈ cur) :
    e.2 ∉ upPages rest :=
  fun hx => (List.nodup_append.mp h.nodup).2.2 _ (List.mem_map_of_mem he) _ hx rfl

theorem PagesOk.inner_notMem (h : ih.PagesOk (cur.map (·.2) ++ upPages (lvl :: rest))) {n : Inner K} (hn : n ∈ lvl) :
    n.page ∉ upPages rest :=
  h.level.cur_notMem (List.mem_map_of_mem (f := Inner.link) hn)

theorem PagesOk.cur_ne_inner (h : ih.PagesOk (cur.map (·.2) ++ upPages (lvl :: rest))) {e : K × ℤ} (he : e ∈ cur)
    {n : Inner K} (hn : n ∈ lvl) : e.2 ≠ n.page := by
  intro heq
  refine h.cur_notMem he (mem_upPages_cons.mpr (Or.inl ?_))
  rw [heq]
  exact List.mem_map_of_mem hn

theorem PagesOk.ne_of_split {L₁ L₂ : List (Inner K)} {P : Inner K}
    (h : ih.PagesOk (cur.map (·.2) ++ upPages ((L₁ ++ P :: L₂) :: rest))) {n : Inner K} (hn : n ∈ L₁ ∨ n ∈ L₂) :
    n.page ≠ P.page := by
  have hnd := (List.nodup_append.mp h.level.nodup).1
  simp only [List.map_append, List.map_cons, List.map_map] at hnd
  obtain ⟨-, h2, h3⟩ := List.nodup_append.mp hnd
  have hmem : ∀ {L : List (Inner K)}, n ∈ L → n.page ∈ L.map ((fun e : K × ℤ => e.2) ∘ Inner.link) := fun h =>
    List.mem_map_of_mem (f := (fun e : K × ℤ => e.2) ∘ Inner.link) h
  rcases hn with hn | hn
  · exact h3 _ (hmem hn) _ List.mem_cons_self
  · intro he
    refine (List.nodup_cons.mp h2).1 ?_
    have := hmem hn
    rwa [he] at this

theorem PagesOk.notMem_left {U V : List (K × ℤ)} {k : K} {p : ℤ} {l : List ℤ}
    (h : ih.PagesOk ((U ++ (k, p) :: V).map (·.2) ++ l)) : p ∉ U.map (·.2) := by
  have hnd := (List.nodup_append.mp h.nodup).1
  rw [List.map_append, List.map_cons] at hnd
  exact fun hp => (List.nodup_append.mp hnd).2.2 _ hp _ List.mem_cons_self rfl

theorem PagesOk.notMem_kids {W A V : List (K × ℤ)} {k : K} {p : ℤ} {l : List ℤ}
    (h : ih.PagesOk ((W ++ A ++ (k, p) :: V).map (·.2) ++ l)) : p ∉ A.map (·.2) := by
  intro hp
  refine h.notMem_left ?_
  rw [List.map_append]
  exact List.mem_append_right _ hp

/-- The page of a new node is none of the old ones. -/
theorem PagesOk.ne_new {U V : List (K × ℤ)} {k key : K} {p q : ℤ} {l : List ℤ}
    (h : ih.PagesOk ((U ++ (k, p) :: (key, q) :: V).map (·.2) ++ l)) {e : K × ℤ} (he : e ∈ U ++ (k, p) :: V) :
    e.2 ≠ q := by
  have hnd := (List.nodup_append.mp h.nodup).1
  have hsplit : U ++ (k, p) :: (key, q) :: V = (U ++ [(k, p)]) ++ (key, q) :: V := by simp
  rw [hsplit, List.map_append, List.map_cons] at hnd
  obtain ⟨-, h2, h3⟩ := List.nodup_append.mp hnd
  have hmem : e ∈ U ++ [(k, p)] ∨ e ∈ V := by
    simp only [List.mem_append, List.mem_cons, List.not_mem_nil, or_false] at he ⊢
    tauto
  rcases hmem with he | he
  · exact h3 _ (List.mem_map_of_mem he) _ List.mem_cons_self
  · intro heq
    refine (List.nodup_cons.mp h2).1 ?_
    have := List.mem_map_of_mem (f := fun e : K × ℤ => e.2) he
    rwa [heq] at this

/-- A freshly allocated page to the right of a node. -/
theorem PagesOk.add_new {ih' : IxIndexHandle K} {U V : List (K × ℤ)} {k key : K} {p : ℤ} {l : List ℤ}
    (h : ih.PagesOk ((U ++ (k, p) :: V).map (·.2) ++ l)) (hfd : ih'.fd2pageno = ih.fd2pageno + 1) :
    ih'.PagesOk ((U ++ (k, p) :: (key, ih.fd2pageno) :: V).map (·.2) ++ l) := by
  have hperm : ((U ++ (k, p) :: (key, ih.fd2pageno) :: V).map (·.2) ++ l).Perm
      (ih.fd2pageno :: ((U ++ (k, p) :: V).map (·.2) ++ l)) := by
    have hU : (U ++ (k, p) :: (key, ih.fd2pageno) :: V).map (·.2) ++ l =
        (U ++ [(k, p)]).map (·.2) ++ ih.fd2pageno :: (V.map (·.2) ++ l) := by simp
    have hV : (U ++ (k, p) :: V).map (·.2) ++ l = (U ++ [(k, p)]).map (·.2) ++ (V.map (·.2) ++ l) := by simp
    rw [hU, hV]
    exact List.perm_middle
  have hp := h.range p (by simp)
  refine ⟨hperm.nodup_iff.mpr (List.nodup_cons.mpr ⟨?_, h.nodup⟩), ?_⟩
  · intro hN
    have := (h.range _ hN).2
    omega
  · intro x hx
    rcases List.mem_cons.mp (hperm.mem_iff.mp hx) with rfl | hx
    · omega
    · have := h.range x hx
      omega

end Pages

/-! ### The parent of a node -/

/-- Page `p` is a child of the inner node `P`, one of the nodes of the level above. -/
structure Above (ih : IxIndexHandle K) (L₁ : List (Inner K)) (P : Inner K) (L₂ : List (Inner K))
    (rest : List (List (Inner K))) (A : List (K × ℤ)) (k : K) (p : ℤ) (B : List (K × ℤ)) (n X : Node K) : Prop where
  ok : ∀ m ∈ L₁ ++ P :: L₂, ih.InnerOk m
  up : ih.Up ((L₁ ++ P :: L₂).map Inner.link) rest
  kids : P.kids = A ++ (k, p) :: B
  child : ih.pages p = some n
  parent : n.parent = P.page
  page : ih.pages P.page = some X
  inner : X.isLeaf = false
  pairs : X.pairs = (A ++ (k, p) :: B).map slot

theorem Up.above {ih : IxIndexHandle K} {U V : List (K × ℤ)} {k : K} {p : ℤ} {lvl : List (Inner K)}
    {rest : List (List (Inner K))} {n : Node K} (hup : ih.Up (U ++ (k, p) :: V) (lvl :: rest))
    (hn : ih.pages p = some n) :
    ∃ L₁ P L₂ A B X, lvl = L₁ ++ P :: L₂ ∧ U = L₁.flatMap (·.kids) ++ A ∧ V = B ++ L₂.flatMap (·.kids) ∧
      ih.Above L₁ P L₂ rest A k p B n X := by
  obtain ⟨hcur, hok, hrest⟩ := hup
  obtain ⟨L₁, P, L₂, A, B, rfl, hP, rfl, rfl⟩ := flatMap_eq_append_cons hcur
  have hPok := hok P (by simp)
  obtain ⟨X, hX, hXleaf, hXpairs⟩ := hPok.node
  rw [hP] at hXpairs
  obtain ⟨x, hx, hpar⟩ := hPok.parents (k, p) (by rw [hP]; simp)
  obtain rfl : n = x := Option.some.inj (hn.symm.trans hx)
  exact ⟨L₁, P, L₂, A, B, X, rfl, rfl, rfl, hok, hrest, hP, hn, hpar, hX, hXleaf, hXpairs⟩

section Above

variable {ih : IxIndexHandle K} {L₁ L₂ : List (Inner K)} {P : Inner K} {rest : List (List (Inner K))}
  {A B : List (K × ℤ)} {k : K} {p : ℤ} {n X : Node K}

theorem Above.mem_cur (h : ih.Above L₁ P L₂ rest A k p B n X) {m : Inner K} (hm : m ∈ L₁ ++ P :: L₂) {e : K × ℤ}
    (he : e ∈ m.kids) : e ∈ L₁.flatMap (·.kids) ++ A ++ (k, p) :: (B ++ L₂.flatMap (·.kids)) := by
  have hcur : (L₁ ++ P :: L₂).flatMap (·.kids) =
      L₁.flatMap (·.kids) ++ A ++ (k, p) :: (B ++ L₂.flatMap (·.kids)) := by
    simp [h.kids]
  rw [← hcur]
  exact List.mem_flatMap.mpr ⟨m, hm, he⟩

/-- The first key of the parent once the child's separator is `f`, whatever stands right of the child. -/
theorem Above.lead_rekeyed (h : ih.Above L₁ P L₂ rest A k p B n X) (f : K) (T : List (K × ℤ)) :
    ∃ c t, A ++ (f, p) :: T = (if A = [] then f else P.lead, c) :: t := by
  obtain ⟨c, t, hct⟩ := (h.ok P (by simp)).lead
  rw [h.kids] at hct
  cases A with
  | nil => exact ⟨p, T, by simp⟩
  | cons a A =>
    simp only [List.cons_append, List.cons.injEq] at hct
    exact ⟨c, A ++ (f, p) :: T, by simp [hct.1]⟩

theorem Above.lead (h : ih.Above L₁ P L₂ rest A k p B n X) (T : List (K × ℤ)) :
    ∃ c t, A ++ (k, p) :: T = (P.lead, c) :: t := by
  have hlead : (if A = [] then k else P.lead) = P.lead := by
    obtain ⟨c, t, hct⟩ := (h.ok P (by simp)).lead
    rw [h.kids] at hct
    split
    · subst A
      simp only [List.nil_append, List.cons.injEq, Prod.mk.injEq] at hct
      exact hct.1.1
    · rfl
  have := h.lead_rekeyed k T
  rwa [hlead] at this

end Above

/-! ### Splitting a node -/

/-- The given pages get the parent `q`. -/
def adopt (ih : IxIndexHandle K) (q : ℤ) (cs : List ℤ) : IxIndexHandle K :=
  { ih with pages := fun x => if x ∈ cs then (ih.pages x).map fun n => { n with parent := q } else ih.pages x }

theorem adopt_notMem {ih : IxIndexHandle K} {q x : ℤ} {cs : List ℤ} (hx : x ∉ cs) :
    (ih.adopt q cs).pages x = ih.pages x :=
  if_neg hx

theorem adopt_mem {ih : IxIndexHandle K} {q x : ℤ} {cs : List ℤ} (hx : x ∈ cs) :
    (ih.adopt q cs).pages x = (ih.pages x).map fun n => { n with parent := q } :=
  if_pos hx

theorem adopt_nil (ih : IxIndexHandle K) (q : ℤ) : ih.adopt q [] = ih := by
  simp [adopt]

theorem adopt_adopt (ih : IxIndexHandle K) (q c : ℤ) (cs : List ℤ) :
    (ih.adopt q [c]).adopt q cs = ih.adopt q (c :: cs) := by
  unfold adopt
  congr 1
  funext x
  by_cases hc : x = c
  · by_cases hcs : x ∈ cs
    · simp [hc, hc ▸ hcs, Function.comp_def]
    · simp [hc, hc ▸ hcs]
  · simp [hc]

theorem modifyPage_parent {ih : IxIndexHandle K} {c q : ℤ} (hc : (ih.pages c).isSome) :
    ih.modifyPage c (fun n => { n with parent := q }) = some (ih.adopt q [c]) := by
  obtain ⟨n, hn⟩ := Option.isSome_iff_exists.mp hc
  unfold modifyPage fetchNode setPage adopt
  rw [hn, Option.map_some]
  congr 2
  funext x
  by_cases hx : x = c
  · simp [hx, hn]
  · simp [hx]

/-- The loop of `split` that makes the new node the parent of its children. -/
theorem maintainChildren_eq {q : ℤ} : ∀ {I : List ℕ} {cs : List ℤ} {ih : IxIndexHandle K} {X : Node K},
    ih.pages q = some X → X.isLeaf = false → I.map X.valueAt = cs.map some → q ∉ cs →
    (∀ c ∈ cs, (ih.pages c).isSome) → I.foldlM (fun ih i => ih.maintainChild q i) ih = some (ih.adopt q cs)
  | [], [], ih, X, _, _, _, _, _ => by simp [adopt_nil]
  | [], c :: cs, _, _, _, _, h, _, _ => by simp at h
  | i :: I, [], _, _, _, _, h, _, _ => by simp at h
  | i :: I, c :: cs, ih, X, hX, hleaf, h, hq, hcs => by
    obtain ⟨hi, hI⟩ := List.cons.inj h
    obtain ⟨hqc, hq⟩ := not_or.mp (mt List.mem_cons.mpr hq)
    have hstep : ih.maintainChild q i = some (ih.adopt q [c]) := by
      unfold maintainChild fetchNode
      rw [hX]
      simp only [Option.bind_eq_bind, Option.bind_some, hleaf, hi, Bool.false_eq_true, if_false]
      exact modifyPage_parent (hcs c List.mem_cons_self)
    rw [List.foldlM_cons, hstep, Option.bind_eq_bind, Option.bind_some, ← adopt_adopt ih q c cs]
    have hqc' : q ∉ [c] := by simpa using hqc
    refine maintainChildren_eq ((adopt_notMem hqc').trans hX) hleaf hI hq ?_
    intro c' hc'
    have := hcs c' (List.mem_cons_of_mem _ hc')
    by_cases h' : c' ∈ [c]
    · rw [adopt_mem h']
      simpa using this
    · rwa [adopt_notMem h']

theorem Node.valueAt_slots {X : Node K} {kids : List (K × ℤ)} (hX : X.pairs = kids.map slot) :
    (List.range X.size).map X.valueAt = (kids.map (·.2)).map some := by
  unfold Node.size Node.valueAt
  rw [hX]
  refine List.ext_getElem (by simp) ?_
  intro i h1 h2
  have hi : i < kids.length := by simpa using h1
  simp [hi, slot]

/-- The inner node on page `p` has given its right half to a new node. -/
structure Halved (ih ih' : IxIndexHandle K) (p : ℤ) (X : Node K) (kids : List (K × ℤ)) : Prop where
  allocated : ih'.fd2pageno = ih.fd2pageno + 1
  root : ih'.rootPage = ih.rootPage
  order : ih'.btreeOrder = ih.btreeOrder
  firstLeaf : ih'.firstLeaf = ih.firstLeaf
  lastLeaf : ih'.lastLeaf = ih.lastLeaf
  new : ih'.pages ih.fd2pageno = some ⟨false, X.parent, 0, 0, (kids.drop (kids.length / 2)).map slot⟩
  old : ih'.pages p = some { X with pairs := (kids.take (kids.length / 2)).map slot }
  moved : ∀ x ∈ (kids.drop (kids.length / 2)).map (·.2),
    ih'.pages x = (ih.pages x).map fun n => { n with parent := ih.fd2pageno }
  other : ∀ x, x ≠ ih.fd2pageno → x ≠ p → x ∉ (kids.drop (kids.length / 2)).map (·.2) → ih'.pages x = ih.pages x

/-- **`split` of an inner node.** -/
theorem split_inner {ih : IxIndexHandle K} {p : ℤ} {X : Node K} {kids : List (K × ℤ)} (hX : ih.pages p = some X)
    (hleaf : X.isLeaf = false) (hpairs : X.pairs = kids.map slot) (hsize : kids.length ≤ ih.maxSize)
    (hp : p < ih.fd2pageno) (hpk : p ∉ kids.map (·.2))
    (hkids : ∀ e ∈ kids, e.2 < ih.fd2pageno ∧ (ih.pages e.2).isSome) :
    ∃ ih', ih.split p = some (ih', ih.fd2pageno) ∧ Halved ih ih' p X kids := by
  obtain ⟨isLeaf, parent, prevLeaf, nextLeaf, pairs⟩ := X
  obtain rfl : isLeaf = false := hleaf
  obtain rfl : pairs = kids.map slot := hpairs
  set N := ih.fd2pageno with hN
  set up := kids.drop (kids.length / 2) with hup
  have hupsub : ∀ e ∈ up, e ∈ kids := fun e he => List.mem_of_mem_drop he
  have hpup : p ∉ up.map (·.2) := by
    intro h
    obtain ⟨e, he, rfl⟩ := List.mem_map.mp h
    exact hpk (List.mem_map_of_mem (hupsub e he))
  have hNup : N ∉ up.map (·.2) := by
    intro h
    obtain ⟨e, he, heN⟩ := List.mem_map.mp h
    have := (hkids e (hupsub e he)).1
    omega
  let mid := (ih.createNode.1.setPage N ⟨false, parent, 0, 0, up.map slot⟩).setPage p
    ⟨false, parent, prevLeaf, nextLeaf, (kids.take (kids.length / 2)).map slot⟩
  have hmidN : mid.pages N = some ⟨false, parent, 0, 0, up.map slot⟩ := by
    simp only [mid, setPage]
    rw [Function.update_of_ne (by omega), Function.update_self]
  have hmid : ∀ x, x ≠ N → x ≠ p → mid.pages x = ih.pages x := by
    intro x h1 h2
    simp only [mid, setPage, createNode]
    rw [Function.update_of_ne h2, Function.update_of_ne h1, Function.update_of_ne h1]
  refine ⟨mid.adopt N (up.map (·.2)), ?_, rfl, rfl, rfl, rfl, rfl, (adopt_notMem hNup).trans hmidN,
    (adopt_notMem hpup).trans (Function.update_self _ _ _), ?_, fun x h1 h2 h3 => (adopt_notMem h3).trans (hmid x h1 h2)⟩
  · have hins : Node.insertPairs ih.createNode.1.maxSize ⟨false, parent, 0, 0, []⟩ 0
        ((kids.map slot).drop ((kids.map slot).length / 2)) = some ⟨false, parent, 0, 0, up.map slot⟩ := by
      unfold Node.insertPairs Node.size
      rw [if_pos]
      · simp [hup]
      · refine ⟨Nat.zero_le _, ?_⟩
        have : ih.createNode.1.maxSize = ih.maxSize := rfl
        simp only [List.length_drop, List.length_map, List.length_nil]
        omega
    have hfold := maintainChildren_eq (I := List.range (Node.size ⟨false, parent, 0, 0, up.map slot⟩)) hmidN rfl
      (Node.valueAt_slots rfl) hNup fun c hc => by
        obtain ⟨e, he, rfl⟩ := List.mem_map.mp hc
        rw [hmid e.2 (fun h => hNup (h ▸ hc)) fun h => hpup (h ▸ hc)]
        exact (hkids e (hupsub e he)).2
    have htake : (kids.map slot).take ((kids.map slot).length / 2) = (kids.take (kids.length / 2)).map slot := by
      rw [List.length_map, List.map_take]
    unfold split fetchNode Node.size
    rw [hX]
    simp only [Option.bind_eq_bind, Option.bind_some, hins, Bool.false_eq_true, if_false, htake]
    exact congrArg (fun o => o.bind fun ih' => some (ih', N)) hfold
  · intro x hx
    rw [adopt_mem hx, hmid x (fun h => hNup (h ▸ hx)) fun h => hpup (h ▸ hx)]

/-- The leaf on page `p` has given its right half to a new leaf, which is linked in to its right. -/
structure LeafHalved (ih ih' : IxIndexHandle K) (p : ℤ) (X : Node K) : Prop where
  allocated : ih'.fd2pageno = ih.fd2pageno + 1
  root : ih'.rootPage = ih.rootPage
  order : ih'.btreeOrder = ih.btreeOrder
  firstLeaf : ih'.firstLeaf = ih.firstLeaf
  lastLeaf : ih'.lastLeaf = if ih.lastLeaf = p then ih.fd2pageno else ih.lastLeaf
  new : ih'.pages ih.fd2pageno = some ⟨true, X.parent, p, X.nextLeaf, X.pairs.drop (X.pairs.length / 2)⟩
  old : ih'.pages p = some { X with pairs := X.pairs.take (X.pairs.length / 2), nextLeaf := ih.fd2pageno }
  next : X.nextLeaf ≠ IX_LEAF_HEADER_PAGE →
    ih'.pages X.nextLeaf = (ih.pages X.nextLeaf).map fun n => { n with prevLeaf := ih.fd2pageno }
  other : ∀ x, x ≠ ih.fd2pageno → x ≠ p → (X.nextLeaf ≠ IX_LEAF_HEADER_PAGE → x ≠ X.nextLeaf) →
    ih'.pages x = ih.pages x

/-- **`split` of a leaf.** -/
theorem split_leaf {ih : IxIndexHandle K} {p : ℤ} {X : Node K} (hX : ih.pages p = some X) (hleaf : X.isLeaf = true)
    (hsize : X.pairs.length ≤ ih.maxSize) (hp : p < ih.fd2pageno)
    (hnext : X.nextLeaf ≠ IX_LEAF_HEADER_PAGE →
      X.nextLeaf < ih.fd2pageno ∧ X.nextLeaf ≠ p ∧ (ih.pages X.nextLeaf).isSome) :
    ∃ ih', ih.split p = some (ih', ih.fd2pageno) ∧ LeafHalved ih ih' p X := by
  obtain ⟨isLeaf, parent, prevLeaf, nextLeaf, pairs⟩ := X
  obtain rfl : isLeaf = true := hleaf
  replace hsize : pairs.length ≤ ih.maxSize := hsize
  set N := ih.fd2pageno with hN
  have hins : Node.insertPairs ih.createNode.1.maxSize ⟨true, parent, 0, 0, []⟩ 0 (pairs.drop (pairs.length / 2)) =
      some ⟨true, parent, 0, 0, pairs.drop (pairs.length / 2)⟩ := by
    have hmax : ih.createNode.1.maxSize = ih.maxSize := rfl
    unfold Node.insertPairs Node.size
    rw [if_pos]
    · simp
    · simp only [List.length_nil, List.length_drop]
      omega
  let mid := ih.createNode.1.setPage N ⟨true, parent, p, nextLeaf, pairs.drop (pairs.length / 2)⟩
  have hmid : ∀ x, x ≠ N → mid.pages x = ih.pages x := by
    intro x hx
    simp only [mid, setPage, createNode]
    rw [Function.update_of_ne hx, Function.update_of_ne hx]
  have hmidN : mid.pages N = some ⟨true, parent, p, nextLeaf, pairs.drop (pairs.length / 2)⟩ :=
    Function.update_self _ _ _
  by_cases hn : nextLeaf = IX_LEAF_HEADER_PAGE
  · refine ⟨{ mid.setPage p ⟨true, parent, prevLeaf, N, pairs.take (pairs.length / 2)⟩ with
      lastLeaf := if ih.lastLeaf = p then N else ih.lastLeaf }, ?_, rfl, rfl, rfl, rfl, rfl, ?_, ?_, fun h => absurd hn h, ?_⟩
    · unfold split fetchNode Node.size
      rw [hX]
      simp only [Option.bind_eq_bind, Option.bind_some, hins, if_true, hn, ne_eq, not_true_eq_false, if_false]
      rw [← hn]
      rfl
    · simp only [setPage]
      rw [Function.update_of_ne (by omega)]
      exact hmidN
    · exact Function.update_self _ _ _
    · intro x h1 h2 _
      simp only [setPage]
      rw [Function.update_of_ne h2]
      exact hmid x h1
  · -- the leaf on the right points back to the new one
    obtain ⟨hlt, hne, hsome⟩ := hnext hn
    obtain ⟨Y, hY⟩ := Option.isSome_iff_exists.mp hsome
    replace hne : nextLeaf ≠ p := hne
    replace hlt : nextLeaf < N := hlt
    replace hY : ih.pages nextLeaf = some Y := hY
    let mid' := mid.setPage nextLeaf { Y with prevLeaf := N }
    have hmod : mid.modifyPage nextLeaf (fun n => { n with prevLeaf := N }) = some mid' := by
      unfold modifyPage fetchNode
      rw [hmid _ hlt.ne, hY]
      rfl
    refine ⟨{ mid'.setPage p ⟨true, parent, prevLeaf, N, pairs.take (pairs.length / 2)⟩ with
      lastLeaf := if ih.lastLeaf = p then N else ih.lastLeaf }, ?_, rfl, rfl, rfl, rfl, rfl, ?_, ?_, ?_, ?_⟩
    · unfold split fetchNode Node.size
      rw [hX]
      simp only [Option.bind_eq_bind, Option.bind_some, hins, if_true, hn, ne_eq, not_false_eq_true]
      change (mid.modifyPage nextLeaf fun n => { n with prevLeaf := N }).bind _ = _
      rw [hmod]
      rfl
    · simp only [setPage]
      rw [Function.update_of_ne (by omega)]
      simp only [mid', setPage]
      rw [Function.update_of_ne hlt.ne']
      exact hmidN
    · exact Function.update_self _ _ _
    · intro _
      simp only [setPage]
      rw [Function.update_of_ne hne]
      simp only [mid', setPage]
      rw [Function.update_self, hY]
      rfl
    · intro x h1 h2 h3
      simp only [setPage]
      rw [Function.update_of_ne h2]
      simp only [mid', setPage]
      rw [Function.update_of_ne (h3 hn)]
      exact hmid x h1

/-! ### Linking a new node -/

/-- What linking a new node into the levels above `cur` may change. -/
structure Grown (ih ih' : IxIndexHandle K) (cur : List (K × ℤ)) (lvls lvls' : List (List (Inner K))) : Prop where
  order : ih'.btreeOrder = ih.btreeOrder
  firstLeaf : ih'.firstLeaf = ih.firstLeaf
  lastLeaf : ih'.lastLeaf = ih.lastLeaf
  le : ih.fd2pageno ≤ ih'.fd2pageno
  fresh : ∃ fresh : List ℤ, (upPages lvls').Perm (fresh ++ upPages lvls) ∧ fresh.Nodup ∧
    ∀ x ∈ fresh, ih.fd2pageno ≤ x ∧ x < ih'.fd2pageno
  below : ∀ e ∈ cur, SameContent ih ih' e.2
  other : ∀ x, x < ih.fd2pageno → x ∉ upPages lvls → x ∉ cur.map (·.2) → ih'.pages x = ih.pages x

/-- The pages of the grown tree are again distinct and allocated. -/
theorem Grown.pagesOk {ih ih' : IxIndexHandle K} {cur : List (K × ℤ)} {lvls lvls' : List (List (Inner K))}
    (h : Grown ih ih' cur lvls lvls') {l : List ℤ} (hl : l ≠ []) (hpg : ih.PagesOk (l ++ upPages lvls)) :
    ih'.PagesOk (l ++ upPages lvls') := by
  obtain ⟨fresh, hperm, hnd, hrange⟩ := h.fresh
  obtain ⟨h1, h2, h3⟩ := List.nodup_append.mp hpg.nodup
  have hold := hpg.mono h.le
  have hlt : ∀ x ∈ l ++ upPages lvls, x ∉ fresh := fun x hx hxf => by
    have := (hpg.range x hx).2
    have := (hrange x hxf).1
    omega
  have hmem : ∀ x, x ∈ upPages lvls' ↔ x ∈ fresh ∨ x ∈ upPages lvls := fun x => by
    rw [hperm.mem_iff, List.mem_append]
  refine ⟨List.nodup_append.mpr ⟨h1, hperm.nodup_iff.mpr (List.nodup_append.mpr ⟨hnd, h2, ?_⟩), ?_⟩, ?_⟩
  · rintro x hx _ hy rfl
    exact hlt x (List.mem_append_right _ hy) hx
  · rintro x hx y hy rfl
    rcases (hmem x).mp hy with hy | hy
    · exact hlt x (List.mem_append_left _ hx) hy
    · exact h3 x hx x hy rfl
  · intro x hx
    rcases List.mem_append.mp hx with hx | hx
    · exact hold.range x (List.mem_append_left _ hx)
    · rcases (hmem x).mp hx with hx | hx
      · obtain ⟨y, hy⟩ := List.exists_mem_of_ne_nil _ hl
        have h1 := hrange x hx
        have h2 := hpg.range y (List.mem_append_left _ hy)
        omega
      · exact hold.range x (List.mem_append_right _ hx)

/-- `insert_into_parent` at the root: a new root above the two nodes. -/
theorem insertIntoParent_root {ih : IxIndexHandle K} {k f key : K} {p q : ℤ} {n m : Node K} {b : ℕ}
    (hord : 2 < ih.btreeOrder) (hroot : p = ih.rootPage) (hpar : n.parent = IX_NO_PAGE)
    (hpg : ih.PagesOk [p, q]) (hn : ih.pages p = some n) (hf : n.keyAt 0 = some f) (hm : ih.pages q = some m)
    (hkey : m.keyAt 0 = some key) :
    ∃ ih' lvls', insertIntoParent (b + 1) ih p key q = some ih' ∧ ih'.Up [(f, p), (key, q)] lvls' ∧
      Grown ih ih' [(k, p), (key, q)] [] lvls' := by
  have hp := hpg.range p (by simp)
  have hq := hpg.range q (by simp)
  have hpq : p ≠ q := by simpa using (List.nodup_cons.mp hpg.nodup).1
  set N := ih.fd2pageno with hN
  let mid := (ih.createNode.1.setPage N ⟨false, IX_NO_PAGE, 0, 0, [(f, p), (key, q)].map slot⟩).adopt N [p, q]
  have hother : ∀ x, x ≠ N → x ∉ [p, q] → mid.pages x = ih.pages x := by
    intro x h1 h2
    simp only [mid]
    rw [adopt_notMem h2]
    simp only [setPage, createNode]
    rw [Function.update_of_ne h1, Function.update_of_ne h1]
  have hkids : ∀ x y, x ∈ [p, q] → ih.pages x = some y → mid.pages x = some { y with parent := N } := by
    intro x y hx hy
    have hxN : x ≠ N := by rcases List.mem_pair.mp hx with rfl | rfl <;> omega
    simp only [mid]
    rw [adopt_mem hx]
    simp only [setPage, createNode]
    rw [Function.update_of_ne hxN, Function.update_of_ne hxN, hy]
    rfl
  have hmidN : mid.pages N = some ⟨false, IX_NO_PAGE, 0, 0, [(f, p), (key, q)].map slot⟩ := by
    simp only [mid]
    rw [adopt_notMem (by simp; omega)]
    exact Function.update_self _ _ _
  refine ⟨{ mid with rootPage := N }, [[⟨N, f, [(f, p), (key, q)]⟩]], ?_, ⟨by simp, ?_, f, rfl, _, hmidN, rfl⟩, ?_⟩
  · have hsome : ∀ x, x ∈ [p, q] → ((ih.createNode.1.setPage N
        ⟨false, IX_NO_PAGE, 0, 0, [(f, p), (key, q)].map slot⟩).pages x).isSome := by
      intro x hx
      have hxN : x ≠ N := by rcases List.mem_pair.mp hx with rfl | rfl <;> omega
      simp only [setPage, createNode]
      rw [Function.update_of_ne hxN, Function.update_of_ne hxN]
      rcases List.mem_pair.mp hx with rfl | rfl
      · rw [hn]; rfl
      · rw [hm]; rfl
    have hins₀ : Node.insertPair ih.createNode.1.maxSize ⟨false, IX_NO_PAGE, 0, 0, []⟩ 0 f ⟨p, -1⟩ =
        some ⟨false, IX_NO_PAGE, 0, 0, [(f, p)].map slot⟩ := by
      simp [Node.insertPair, Node.insertPairs, Node.size, slot, maxSize, createNode]
    have hins₁ : Node.insertPair ih.createNode.1.maxSize ⟨false, IX_NO_PAGE, 0, 0, [(f, p)].map slot⟩ 1 key ⟨q, -1⟩ =
        some ⟨false, IX_NO_PAGE, 0, 0, [(f, p), (key, q)].map slot⟩ := by
      simp [Node.insertPair, Node.insertPairs, Node.size, slot, maxSize, createNode]
      omega
    unfold insertIntoParent fetchNode Node.isRootPage
    rw [hn, hm]
    simp only [Option.bind_eq_bind, Option.bind_some, hpar, decide_true, if_true, hf, hkey, hins₀, hins₁]
    rw [show ih.createNode.2 = N from rfl, modifyPage_parent (hsome p (by simp)), Option.bind_some,
      modifyPage_parent, Option.bind_some, adopt_adopt]
    rw [adopt_notMem (by simpa using hpq.symm)]
    exact hsome q (by simp)
  · intro x hx
    obtain rfl := List.mem_singleton.mp hx
    refine ⟨⟨p, _, rfl⟩, ?_, ⟨_, hmidN, rfl, rfl⟩, ?_⟩
    · simp only [List.length_cons, List.length_nil]
      exact Nat.lt_succ_of_lt hord
    · intro e he
      rcases List.mem_pair.mp he with rfl | rfl
      · exact ⟨_, hkids p n (by simp) hn, rfl⟩
      · exact ⟨_, hkids q m (by simp) hm, rfl⟩
  · refine ⟨rfl, rfl, rfl, ?_, ⟨[N], by simp [upPages], by simp, ?_⟩, ?_, ?_⟩
    · exact (Int.lt_succ N).le
    · intro x hx
      obtain rfl := List.mem_singleton.mp hx
      exact ⟨le_refl _, Int.lt_succ N⟩
    · intro e he y hy
      refine ⟨N, hkids e.2 y ?_ hy⟩
      rcases List.mem_pair.mp he with rfl | rfl <;> simp
    · intro x hx _ hcur
      exact hother x (by omega) hcur

/-- The handle after a new child is put into an inner node and told its parent. -/
def linked (ih : IxIndexHandle K) (P : Inner K) (X : Node K) (kids : List (K × ℤ)) (q : ℤ) : IxIndexHandle K :=
  (ih.setPage P.page { X with pairs := kids.map slot }).adopt P.page [q]

section Linked

variable {ih : IxIndexHandle K} {P : Inner K} {X m : Node K} {kids : List (K × ℤ)} {q : ℤ}

theorem linked_self (hPq : P.page ≠ q) : (ih.linked P X kids q).pages P.page = some { X with pairs := kids.map slot } :=
  (adopt_notMem (by simpa using hPq)).trans (Function.update_self _ _ _)

theorem linked_new (hPq : P.page ≠ q) (hm : ih.pages q = some m) :
    (ih.linked P X kids q).pages q = some { m with parent := P.page } := by
  unfold linked
  rw [adopt_mem (by simp)]
  simp only [setPage]
  rw [Function.update_of_ne hPq.symm, hm]
  rfl

theorem linked_other {x : ℤ} (hxP : x ≠ P.page) (hxq : x ≠ q) : (ih.linked P X kids q).pages x = ih.pages x :=
  (adopt_notMem (by simpa using hxq)).trans (Function.update_of_ne hxP _ _)

theorem linked_sameContent {x : ℤ} (hPq : P.page ≠ q) (hm : ih.pages q = some m) (hx : x ≠ P.page) :
    SameContent ih (ih.linked P X kids q) x := by
  by_cases hxq : x = q
  · subst hxq
    intro y hy
    exact ⟨P.page, linked_new hPq hy⟩
  · exact .of_eq (linked_other hx hxq)

end Linked

/-- Page `q` holds a node to be put among the children of `P`: these become `kids`, and the level below `cur`. -/
structure Linking (ih : IxIndexHandle K) (L₁ : List (Inner K)) (P : Inner K) (L₂ : List (Inner K))
    (rest : List (List (Inner K))) (kids cur : List (K × ℤ)) (key : K) (q : ℤ) (X m : Node K) : Prop where
  ok : ∀ n ∈ L₁ ++ P :: L₂, ih.InnerOk n
  up : ih.Up ((L₁ ++ P :: L₂).map Inner.link) rest
  pages : ih.PagesOk (cur.map (·.2) ++ upPages ((L₁ ++ P :: L₂) :: rest))
  page : ih.pages P.page = some X
  inner : X.isLeaf = false
  new : ih.pages q = some m
  cur_eq : cur = L₁.flatMap (·.kids) ++ kids ++ L₂.flatMap (·.kids)
  mem_new : (key, q) ∈ cur
  old : ∀ n ∈ L₁ ++ P :: L₂, ∀ e ∈ n.kids, e ∈ cur ∧ e.2 ≠ q
  kids_old : ∀ e ∈ kids, e ∈ P.kids ∨ e = (key, q)
  lead : ∃ c t, kids = (P.lead, c) :: t
  length_le : kids.length ≤ ih.maxSize

section Linking

variable {ih : IxIndexHandle K} {L₁ L₂ : List (Inner K)} {P : Inner K} {rest : List (List (Inner K))}
  {kids cur : List (K × ℤ)} {key : K} {q : ℤ} {X m : Node K}

/-- A new node goes to the right of an old one, below the same parent. -/
theorem Above.linking {A B : List (K × ℤ)} {k : K} {p : ℤ} {n : Node K} (h : ih.Above L₁ P L₂ rest A k p B n X)
    (hpg : ih.PagesOk ((L₁.flatMap (·.kids) ++ A ++ (k, p) :: (key, q) :: (B ++ L₂.flatMap (·.kids))).map (·.2) ++
      upPages ((L₁ ++ P :: L₂) :: rest))) (hm : ih.pages q = some m) :
    ih.Linking L₁ P L₂ rest (A ++ (k, p) :: (key, q) :: B)
      (L₁.flatMap (·.kids) ++ A ++ (k, p) :: (key, q) :: (B ++ L₂.flatMap (·.kids))) key q X m := by
  refine ⟨h.ok, h.up, hpg, h.page, h.inner, hm, by simp, by simp, ?_, ?_, h.lead _, ?_⟩
  · intro n hn e he
    have hmem := h.mem_cur hn he
    refine ⟨?_, hpg.ne_new hmem⟩
    simp only [List.mem_append, List.mem_cons] at hmem ⊢
    tauto
  · intro e he
    rw [h.kids]
    simp only [List.mem_append, List.mem_cons] at he ⊢
    tauto
  · have hsize := (h.ok P (by simp)).size
    rw [h.kids] at hsize
    simp only [List.length_append, List.length_cons] at hsize ⊢
    omega

theorem Linking.mem_cur (h : ih.Linking L₁ P L₂ rest kids cur key q X m) {e : K × ℤ} (he : e ∈ kids) : e ∈ cur := by
  rw [h.cur_eq]
  exact List.mem_append_left _ (List.mem_append_right _ he)

theorem Linking.ne_page (h : ih.Linking L₁ P L₂ rest kids cur key q X m) {e : K × ℤ} (he : e ∈ cur) :
    e.2 ≠ P.page :=
  h.pages.cur_ne_inner he (by simp)

theorem Linking.page_ne (h : ih.Linking L₁ P L₂ rest kids cur key q X m) : P.page ≠ q :=
  (h.ne_page h.mem_new).symm

theorem Linking.lt (h : ih.Linking L₁ P L₂ rest kids cur key q X m) {e : K × ℤ} (he : e ∈ cur) :
    e.2 < ih.fd2pageno :=
  (h.pages.range e.2 (List.mem_append_left _ (List.mem_map_of_mem he))).2

/-- Linking keeps the levels above. -/
theorem Linking.linked_up (h : ih.Linking L₁ P L₂ rest kids cur key q X m) :
    (ih.linked P X kids q).Up ((L₁ ++ P :: L₂).map Inner.link) rest := by
  have hPmem : P ∈ L₁ ++ P :: L₂ := by simp
  refine @Up.congr K ih (ih.linked P X kids q) rfl rfl _ _ h.up ?_ ?_
  · intro e he y hy
    obtain ⟨n, hn, rfl⟩ := List.mem_map.mp he
    by_cases hnP : n.link.2 = P.page
    · rw [hnP] at hy ⊢
      rw [h.page, Option.some.injEq] at hy
      exact ⟨_, linked_self h.page_ne, by rw [← hy]⟩
    · exact ⟨y, (linked_other hnP (h.pages.cur_ne_inner h.mem_new hn).symm).trans hy, rfl⟩
  · intro x hx
    refine linked_other (fun hxP => h.pages.inner_notMem hPmem (hxP ▸ hx)) ?_
    intro hxq
    exact h.pages.cur_notMem h.mem_new (mem_upPages_cons.mpr (Or.inr (hxq ▸ hx)))

/-- Linking keeps the other nodes of the level. -/
theorem Linking.linked_ok (h : ih.Linking L₁ P L₂ rest kids cur key q X m) {n : Inner K} (hn : n ∈ L₁ ∨ n ∈ L₂) :
    (ih.linked P X kids q).InnerOk n := by
  have hmem : n ∈ L₁ ++ P :: L₂ := by rcases hn with h | h <;> simp [h]
  refine (h.ok n hmem).congr rfl (.of_eq ?_) fun e he => .of_eq ?_
  · exact linked_other (h.pages.ne_of_split hn) (h.pages.cur_ne_inner h.mem_new hmem).symm
  · exact linked_other (h.ne_page (h.old n hmem e he).1) (h.old n hmem e he).2

/-- Linking makes the children the node's own. -/
theorem Linking.linked_kids (h : ih.Linking L₁ P L₂ rest kids cur key q X m) {e : K × ℤ} (he : e ∈ kids) :
    (ih.linked P X kids q).HasParent e.2 P.page := by
  have hPmem : P ∈ L₁ ++ P :: L₂ := by simp
  rcases h.kids_old e he with he | rfl
  · refine ((h.ok P hPmem).parents e he).congr (.of_eq ?_)
    exact linked_other (h.ne_page (h.old P hPmem e he).1) (h.old P hPmem e he).2
  · exact ⟨_, linked_new h.page_ne h.new, rfl⟩

/-- One round of `insert_into_parent` below the root. -/
theorem insertIntoParent_step {A B : List (K × ℤ)} {k : K} {p : ℤ} {n : Node K} {b : ℕ}
    (ha : ih.Above L₁ P L₂ rest A k p B n X)
    (h : ih.Linking L₁ P L₂ rest (A ++ (k, p) :: (key, q) :: B) cur key q X m) (hP : P.page ≠ IX_NO_PAGE)
    (hpA : p ∉ A.map (·.2)) (hkids : kids = A ++ (k, p) :: (key, q) :: B) :
    insertIntoParent (b + 1) ih p key q =
      if ih.maxSize ≤ kids.length then
        ((ih.linked P X kids q).split P.page).bind fun r => (r.1.pages r.2).bind fun y => (y.keyAt 0).bind
          fun newKey => insertIntoParent b r.1 P.page newKey r.2
      else some (ih.linked P X kids q) := by
  have hchild := Node.findChild_slot ha.pairs hpA
  have hinsert : X.insertPair ih.maxSize (A.length + 1) key ⟨q, -1⟩ = some { X with pairs := kids.map slot } := by
    rw [hkids]
    exact Node.insertPair_slot ha.pairs h.length_le
  have hq : ((ih.setPage P.page { X with pairs := kids.map slot }).pages q).isSome := by
    simp only [setPage]
    rw [Function.update_of_ne h.page_ne.symm, h.new]
    rfl
  have hroot : n.isRootPage = false := by
    unfold Node.isRootPage
    rw [ha.parent]
    exact decide_eq_false hP
  rw [insertIntoParent]
  simp only [fetchNode, ha.child, h.new, ha.parent, ha.page, hchild, hinsert, Option.bind_eq_bind, Option.bind_some,
    hroot, Bool.false_eq_true, if_false, modifyPage_parent hq, Node.size, List.length_map]
  rfl

/-! ### A parent with room -/

/-- With room in the parent the level has its new node, and the levels above stay. -/
theorem Linking.room_up (h : ih.Linking L₁ P L₂ rest kids cur key q X m) (hroom : kids.length < ih.maxSize) :
    (ih.linked P X kids q).Up cur ((L₁ ++ ⟨P.page, P.lead, kids⟩ :: L₂) :: rest) := by
  have hup := h.linked_up
  refine ⟨by simp [h.cur_eq], ?_, ?_⟩
  · intro x hx
    rw [List.mem_append, List.mem_cons] at hx
    rcases hx with hx | rfl | hx
    · exact h.linked_ok (Or.inl hx)
    · exact ⟨h.lead, hroom, ⟨_, linked_self h.page_ne, h.inner, rfl⟩, fun e he => h.linked_kids he⟩
    · exact h.linked_ok (Or.inr hx)
  · rw [List.map_append, List.map_cons] at hup ⊢
    exact hup

theorem Linking.room_grown (h : ih.Linking L₁ P L₂ rest kids cur key q X m) :
    Grown ih (ih.linked P X kids q) cur ((L₁ ++ P :: L₂) :: rest) ((L₁ ++ ⟨P.page, P.lead, kids⟩ :: L₂) :: rest) := by
  refine ⟨rfl, rfl, rfl, le_refl _, ⟨[], by simp [upPages], List.nodup_nil, by simp⟩, ?_, ?_⟩
  · intro e he
    exact linked_sameContent h.page_ne h.new (h.ne_page he)
  · intro x _ hxup hxcur
    refine linked_other (fun hxP => hxup (mem_upPages_cons.mpr (Or.inl ?_))) fun hxq => hxcur ?_
    · rw [hxP]
      simp
    · rw [hxq]
      exact List.mem_map_of_mem (f := fun e : K × ℤ => e.2) h.mem_new

/-! ### A full parent

`ih₃` is the handle after the full parent is split, and `ih'` the one after its right
half, under the key `newKey`, is linked into the levels above.
-/

variable {ih₃ ih' : IxIndexHandle K} {rest' : List (List (Inner K))} {newKey : K} {t : List (K × ℤ)} {c : ℤ}

/-- A full parent is split. -/
theorem Linking.split (h : ih.Linking L₁ P L₂ rest kids cur key q X m) :
    ∃ ih₃, (ih.linked P X kids q).split P.page = some (ih₃, ih.fd2pageno) ∧
      Halved (ih.linked P X kids q) ih₃ P.page { X with pairs := kids.map slot } kids := by
  have hPkids : P.page ∉ kids.map (·.2) := by
    intro hP
    obtain ⟨e, he, heP⟩ := List.mem_map.mp hP
    exact h.ne_page (h.mem_cur he) heP
  have hPlt : P.page < ih.fd2pageno := (h.pages.range P.page (by rw [upPages_cons]; simp)).2
  refine split_inner (linked_self h.page_ne) h.inner rfl h.length_le hPlt hPkids ?_
  intro e he
  obtain ⟨y, hy, -⟩ := h.linked_kids he
  exact ⟨h.lt (h.mem_cur he), by rw [hy]; rfl⟩

/-- The levels above the split node are as before, but for the node itself. -/
theorem Linking.halved_keep (h : ih.Linking L₁ P L₂ rest kids cur key q X m)
    (hh : Halved (ih.linked P X kids q) ih₃ P.page { X with pairs := kids.map slot } kids) {x : ℤ}
    (hx : x ∈ upPages ((L₁ ++ P :: L₂) :: rest)) (hxP : x ≠ P.page) :
    ih₃.pages x = (ih.linked P X kids q).pages x := by
  refine hh.other x (h.pages.range x (List.mem_append_right _ hx)).2.ne hxP ?_
  intro hxd
  obtain ⟨e, he, rfl⟩ := List.mem_map.mp hxd
  exact h.pages.cur_notMem (h.mem_cur (List.mem_of_mem_drop he)) hx

theorem Linking.halved_up (h : ih.Linking L₁ P L₂ rest kids cur key q X m)
    (hh : Halved (ih.linked P X kids q) ih₃ P.page { X with pairs := kids.map slot } kids) :
    ih₃.Up (L₁.map Inner.link ++ (P.lead, P.page) :: L₂.map Inner.link) rest := by
  have hup := h.linked_up.congr hh.root hh.order (fun e he y hy => ?_) fun x hx =>
    h.halved_keep hh (mem_upPages_cons.mpr (Or.inr hx)) fun hxP => h.pages.inner_notMem (n := P) (by simp) (hxP ▸ hx)
  · rw [List.map_append, List.map_cons] at hup
    exact hup
  · obtain ⟨n, hn, rfl⟩ := List.mem_map.mp he
    by_cases hnP : n.link.2 = P.page
    · rw [hnP] at hy ⊢
      rw [linked_self h.page_ne, Option.some.injEq] at hy
      exact ⟨_, hh.old, by rw [← hy]⟩
    · exact ⟨y, (h.halved_keep hh (mem_upPages_cons.mpr (Or.inl (List.mem_map_of_mem hn))) hnP).trans hy, rfl⟩

theorem Linking.halved_pages (h : ih.Linking L₁ P L₂ rest kids cur key q X m)
    (hh : Halved (ih.linked P X kids q) ih₃ P.page { X with pairs := kids.map slot } kids) :
    ih₃.PagesOk ((L₁.map Inner.link ++ (P.lead, P.page) :: (newKey, ih.fd2pageno) :: L₂.map Inner.link).map (·.2) ++
      upPages rest) := by
  have hlvl := h.pages.level
  rw [List.map_append (f := Inner.link), List.map_cons] at hlvl
  exact PagesOk.add_new hlvl hh.allocated

theorem mem_links {N x : ℤ} :
    x ∈ (L₁.map Inner.link ++ (P.lead, P.page) :: (newKey, N) :: L₂.map Inner.link).map (·.2) ↔
      x = N ∨ x ∈ (L₁ ++ P :: L₂).map (·.page) := by
  simp only [List.map_append, List.map_map, List.map_cons, List.mem_append, List.mem_cons]
  tauto

theorem Linking.cur_halves (h : ih.Linking L₁ P L₂ rest kids cur key q X m) (i : ℕ) :
    cur = (L₁.flatMap (·.kids) ++ kids.take i) ++ (kids.drop i ++ L₂.flatMap (·.kids)) :=
  calc cur = L₁.flatMap (·.kids) ++ kids ++ L₂.flatMap (·.kids) := h.cur_eq
    _ = L₁.flatMap (·.kids) ++ (kids.take i ++ kids.drop i) ++ L₂.flatMap (·.kids) := by
      rw [List.take_append_drop]
    _ = _ := by simp only [List.append_assoc]

/-- Linking the right half in above leaves the level below alone. -/
theorem Linking.grown_keep (h : ih.Linking L₁ P L₂ rest kids cur key q X m)
    (hh : Halved (ih.linked P X kids q) ih₃ P.page { X with pairs := kids.map slot } kids)
    (hg : Grown ih₃ ih' (L₁.map Inner.link ++ (P.lead, P.page) :: (newKey, ih.fd2pageno) :: L₂.map Inner.link)
      rest rest') {e : K × ℤ} (he : e ∈ cur) : ih'.pages e.2 = ih₃.pages e.2 := by
  have hlt := h.lt he
  refine hg.other e.2 ?_ (fun hu => h.pages.cur_notMem he (mem_upPages_cons.mpr (Or.inr hu))) ?_
  · have : ih₃.fd2pageno = ih.fd2pageno + 1 := hh.allocated
    omega
  · intro hl
    rcases mem_links.mp hl with hN | hl
    · exact hlt.ne hN
    · exact h.pages.cur_notMem he (mem_upPages_cons.mpr (Or.inl hl))

/-- Only the children in the right half change, and only their parent. -/
theorem Linking.grown_side (h : ih.Linking L₁ P L₂ rest kids cur key q X m)
    (hh : Halved (ih.linked P X kids q) ih₃ P.page { X with pairs := kids.map slot } kids)
    (hg : Grown ih₃ ih' (L₁.map Inner.link ++ (P.lead, P.page) :: (newKey, ih.fd2pageno) :: L₂.map Inner.link)
      rest rest') {e : K × ℤ}
    (he : e ∈ L₁.flatMap (·.kids) ++ kids.take (kids.length / 2) ∨ e ∈ L₂.flatMap (·.kids)) :
    ih'.pages e.2 = (ih.linked P X kids q).pages e.2 := by
  have hcur := h.cur_halves (kids.length / 2)
  have hmem : e ∈ cur := by
    rw [hcur]
    simp only [List.mem_append] at he ⊢
    tauto
  rw [h.grown_keep hh hg hmem]
  refine hh.other e.2 (h.lt hmem).ne (h.ne_page hmem) ?_
  intro hed
  have hnd := (List.nodup_append.mp h.pages.nodup).1
  rw [hcur, List.map_append, @List.map_append _ _ _ (kids.drop (kids.length / 2))] at hnd
  obtain ⟨-, h2, h3⟩ := List.nodup_append.mp hnd
  rcases he with he | he
  · exact h3 _ (List.mem_map_of_mem he) _ (List.mem_append_left _ hed) rfl
  · exact (List.nodup_append.mp h2).2.2 _ hed _ (List.mem_map_of_mem he) rfl

theorem Linking.grown_old (h : ih.Linking L₁ P L₂ rest kids cur key q X m)
    (hh : Halved (ih.linked P X kids q) ih₃ P.page { X with pairs := kids.map slot } kids)
    (hg : Grown ih₃ ih' (L₁.map Inner.link ++ (P.lead, P.page) :: (newKey, ih.fd2pageno) :: L₂.map Inner.link)
      rest rest') {n : Inner K} (hn : n ∈ L₁ ∨ n ∈ L₂) : ih'.InnerOk n := by
  have hmem : n ∈ L₁ ++ P :: L₂ := by rcases hn with h | h <;> simp [h]
  refine (h.linked_ok hn).congr (hg.order.trans hh.order) (SameContent.trans (.of_eq ?_) (hg.below n.link ?_))
    fun e he => .of_eq (h.grown_side hh hg ?_)
  · exact h.halved_keep hh (mem_upPages_cons.mpr (Or.inl (List.mem_map_of_mem hmem))) (h.pages.ne_of_split hn)
  · have := List.mem_map_of_mem (f := Inner.link) hmem
    simp only [List.map_append, List.map_cons, List.mem_append, List.mem_cons] at this ⊢
    rcases this with h | h | h
    · exact Or.inl h
    · exact Or.inr (Or.inl h)
    · exact Or.inr (Or.inr (Or.inr h))
  · rcases hn with h | h
    · exact Or.inl (List.mem_append_left _ (List.mem_flatMap.mpr ⟨n, h, he⟩))
    · exact Or.inr (List.mem_flatMap.mpr ⟨n, h, he⟩)

theorem Linking.take_lead (h : ih.Linking L₁ P L₂ rest kids cur key q X m) (hlen : 2 ≤ kids.length) :
    ∃ c t, kids.take (kids.length / 2) = (P.lead, c) :: t := by
  obtain ⟨c, t, hct⟩ := h.lead
  refine ⟨c, t.take (kids.length / 2 - 1), ?_⟩
  obtain ⟨i, hi⟩ : ∃ i, kids.length / 2 = i + 1 := ⟨kids.length / 2 - 1, by omega⟩
  rw [hi, hct, List.take_succ_cons, Nat.add_sub_cancel]

/-- The left half stays with the old page. -/
theorem Linking.grown_left (h : ih.Linking L₁ P L₂ rest kids cur key q X m)
    (hh : Halved (ih.linked P X kids q) ih₃ P.page { X with pairs := kids.map slot } kids)
    (hg : Grown ih₃ ih' (L₁.map Inner.link ++ (P.lead, P.page) :: (newKey, ih.fd2pageno) :: L₂.map Inner.link)
      rest rest') (hlen : 2 ≤ kids.length) :
    ih'.InnerOk ⟨P.page, P.lead, kids.take (kids.length / 2)⟩ := by
  obtain ⟨r, hr⟩ := hg.below (P.lead, P.page) (by simp) _ hh.old
  refine ⟨h.take_lead hlen, ?_, ⟨_, hr, h.inner, rfl⟩, ?_⟩
  · have hle := h.length_le
    have hord : ih'.btreeOrder = ih.btreeOrder := hg.order.trans hh.order
    unfold maxSize at hle ⊢
    rw [List.length_take, hord]
    omega
  · intro e he
    refine (h.linked_kids (List.mem_of_mem_take he)).congr (.of_eq (h.grown_side hh hg (Or.inl ?_)))
    exact List.mem_append_right _ he

/-- The right half is the new node's. -/
theorem Linking.grown_right (h : ih.Linking L₁ P L₂ rest kids cur key q X m)
    (hh : Halved (ih.linked P X kids q) ih₃ P.page { X with pairs := kids.map slot } kids)
    (hg : Grown ih₃ ih' (L₁.map Inner.link ++ (P.lead, P.page) :: (newKey, ih.fd2pageno) :: L₂.map Inner.link)
      rest rest') (hlen : 2 ≤ kids.length) (hnew : kids.drop (kids.length / 2) = (newKey, c) :: t) :
    ih'.InnerOk ⟨ih.fd2pageno, newKey, kids.drop (kids.length / 2)⟩ := by
  obtain ⟨r, hr⟩ := hg.below (newKey, ih.fd2pageno) (by simp) _ hh.new
  refine ⟨⟨c, t, hnew⟩, ?_, ⟨_, hr, rfl, rfl⟩, ?_⟩
  · have hle := h.length_le
    have hord : ih'.btreeOrder = ih.btreeOrder := hg.order.trans hh.order
    unfold maxSize at hle ⊢
    rw [List.length_drop, hord]
    omega
  · intro e he
    have hek := List.mem_of_mem_drop he
    obtain ⟨y, hy, -⟩ := h.linked_kids hek
    refine ⟨{ y with parent := ih.fd2pageno }, ?_, rfl⟩
    rw [h.grown_keep hh hg (h.mem_cur hek), hh.moved e.2 (List.mem_map_of_mem he), hy]
    rfl

/-- The level has the two halves in place of the full node. -/
theorem Linking.grown_up (h : ih.Linking L₁ P L₂ rest kids cur key q X m)
    (hh : Halved (ih.linked P X kids q) ih₃ P.page { X with pairs := kids.map slot } kids)
    (hg : Grown ih₃ ih' (L₁.map Inner.link ++ (P.lead, P.page) :: (newKey, ih.fd2pageno) :: L₂.map Inner.link)
      rest rest') (hlen : 2 ≤ kids.length) (hnew : kids.drop (kids.length / 2) = (newKey, c) :: t)
    (hup : ih'.Up (L₁.map Inner.link ++ (P.lead, P.page) :: (newKey, ih.fd2pageno) :: L₂.map Inner.link) rest') :
    ih'.Up cur ((L₁ ++ ⟨P.page, P.lead, kids.take (kids.length / 2)⟩ ::
      ⟨ih.fd2pageno, newKey, kids.drop (kids.length / 2)⟩ :: L₂) :: rest') := by
  refine ⟨?_, ?_, ?_⟩
  · refine Eq.trans ?_ (h.cur_halves (kids.length / 2)).symm
    simp
  · intro n hn
    simp only [List.mem_append, List.mem_cons] at hn
    rcases hn with hn | rfl | rfl | hn
    · exact h.grown_old hh hg (Or.inl hn)
    · exact h.grown_left hh hg hlen
    · exact h.grown_right hh hg hlen hnew
    · exact h.grown_old hh hg (Or.inr hn)
  · rw [List.map_append, List.map_cons, List.map_cons]
    exact hup

/-- Nothing else has changed: the split and the climb together are one growth. -/
theorem Linking.grown (h : ih.Linking L₁ P L₂ rest kids cur key q X m)
    (hh : Halved (ih.linked P X kids q) ih₃ P.page { X with pairs := kids.map slot } kids)
    (hg : Grown ih₃ ih' (L₁.map Inner.link ++ (P.lead, P.page) :: (newKey, ih.fd2pageno) :: L₂.map Inner.link)
      rest rest') {left right : List (K × ℤ)} :
    Grown ih ih' cur ((L₁ ++ P :: L₂) :: rest)
      ((L₁ ++ ⟨P.page, P.lead, left⟩ :: ⟨ih.fd2pageno, newKey, right⟩ :: L₂) :: rest') := by
  obtain ⟨fresh, hperm, hnd, hfresh⟩ := hg.fresh
  have hfd : ih₃.fd2pageno = ih.fd2pageno + 1 := hh.allocated
  have hle := hg.le
  refine ⟨hg.order.trans hh.order, hg.firstLeaf.trans hh.firstLeaf, hg.lastLeaf.trans hh.lastLeaf, by omega,
    ⟨ih.fd2pageno :: fresh, ?_, List.nodup_cons.mpr ⟨?_, hnd⟩, ?_⟩, ?_, ?_⟩
  · rw [upPages_cons, upPages_cons]
    have hmid : ((L₁ ++ ⟨P.page, P.lead, left⟩ :: ⟨ih.fd2pageno, newKey, right⟩ :: L₂).map (·.page)).Perm
        (ih.fd2pageno :: (L₁ ++ P :: L₂).map (·.page)) := by
      rw [List.append_cons, List.map_append, List.map_cons]
      refine List.perm_middle.trans (List.Perm.of_eq ?_)
      simp
    refine (hmid.append hperm).trans (List.Perm.cons ih.fd2pageno ?_)
    exact List.perm_append_comm_assoc _ _ _
  · intro hN
    have := (hfresh _ hN).1
    omega
  · intro x hx
    rcases List.mem_cons.mp hx with rfl | hx
    · omega
    · have := hfresh x hx
      omega
  · intro e he
    have hsame : SameContent ih (ih.linked P X kids q) e.2 := linked_sameContent h.page_ne h.new (h.ne_page he)
    refine hsame.trans ?_
    intro y hy
    rw [h.grown_keep hh hg he]
    by_cases hed : e.2 ∈ (kids.drop (kids.length / 2)).map (·.2)
    · exact ⟨ih.fd2pageno, by rw [hh.moved e.2 hed, hy]; rfl⟩
    · exact ⟨y.parent, (hh.other e.2 (h.lt he).ne (h.ne_page he) hed).trans hy⟩
  · intro x hxN hxup hxcur
    rw [mem_upPages_cons, not_or] at hxup
    have hxP : x ≠ P.page := fun hxP => hxup.1 (by rw [hxP]; simp)
    have hxq : x ≠ q := fun hxq => hxcur (by rw [hxq]; exact List.mem_map_of_mem (f := fun e : K × ℤ => e.2) h.mem_new)
    rw [hg.other x (by omega) hxup.2 fun hl => ?_, hh.other x hxN.ne hxP fun hd => ?_]
    · exact linked_other hxP hxq
    · obtain ⟨e, he, rfl⟩ := List.mem_map.mp hd
      exact hxcur (List.mem_map_of_mem (h.mem_cur (List.mem_of_mem_drop he)))
    · rcases mem_links.mp hl with hl | hl
      · exact hxN.ne hl
      · exact hxup.1 hl

end Linking

/-- **`insert_into_parent`** puts a new node to the right of an old one; the levels above are a tree again. -/
theorem insertIntoParent_up : ∀ {lvls : List (List (Inner K))} {ih : IxIndexHandle K} {U V : List (K × ℤ)}
    {k f key : K} {p q : ℤ} {n m : Node K} {b : ℕ}, 2 < ih.btreeOrder → ih.Up (U ++ (k, p) :: V) lvls →
    ih.PagesOk ((U ++ (k, p) :: (key, q) :: V).map (·.2) ++ upPages lvls) → ih.pages p = some n →
    n.keyAt 0 = some f → ih.pages q = some m → m.keyAt 0 = some key → lvls.length < b →
    ∃ ih' lvls' k', insertIntoParent b ih p key q = some ih' ∧ ih'.Up (U ++ (k', p) :: (key, q) :: V) lvls' ∧
      (k' = k ∨ U = [] ∧ V = [] ∧ k' = f) ∧ Grown ih ih' (U ++ (k, p) :: (key, q) :: V) lvls lvls'
  | [], ih, U, V, k, f, key, p, q, n, m, bound + 1, hord, hup, hpg, hn, hf, hm, hkey, _ => by
    obtain ⟨k₀, hcur, x, hx, hpar⟩ := hup
    obtain ⟨rfl, rfl, rfl, rfl⟩ := root_eq hcur
    obtain rfl : n = x := Option.some.inj (hn.symm.trans hx)
    obtain ⟨ih', lvls', hrun, hup', hgrown⟩ := insertIntoParent_root (k := k) (b := bound) hord rfl hpar
      (by simpa [upPages] using hpg) hn hf hm hkey
    exact ⟨ih', lvls', f, hrun, hup', Or.inr ⟨rfl, rfl, rfl⟩, hgrown⟩
  | lvl :: rest, ih, U, V, k, f, key, p, q, n, m, bound + 1, hord, hup, hpg, hn, hf, hm, hkey, hb => by
    obtain ⟨L₁, P, L₂, A, B, X, rfl, rfl, rfl, ha⟩ := hup.above hn
    have h := ha.linking hpg hm
    have hP : P.page ≠ IX_NO_PAGE := by
      have := (hpg.range P.page (by rw [upPages_cons]; simp)).1
      unfold IX_NO_PAGE
      omega
    have hstep := insertIntoParent_step (b := bound) ha h hP hpg.notMem_kids rfl
    set kids := A ++ (k, p) :: (key, q) :: B with hkids
    by_cases hfull : ih.maxSize ≤ kids.length
    · -- split the parent, and go on with its right half
      have hlen : 2 ≤ kids.length := by
        unfold maxSize at hfull
        omega
      obtain ⟨ih₃, hsplit, hh⟩ := h.split
      obtain ⟨⟨newKey, c⟩, t, hnew⟩ : ∃ e t, kids.drop (kids.length / 2) = e :: t :=
        List.exists_cons_of_length_pos (by rw [List.length_drop]; omega)
      obtain ⟨c', t', htake⟩ := h.take_lead hlen
      have hN : ih₃.pages ih.fd2pageno = _ := hh.new
      have hrun : insertIntoParent (bound + 1) ih p key q =
          insertIntoParent bound ih₃ P.page newKey ih.fd2pageno := by
        rw [hstep, if_pos hfull, hsplit, Option.bind_some, hN, Option.bind_some, hnew]
        rfl
      have hord₃ : 2 < ih₃.btreeOrder := by
        rw [hh.order]
        exact hord
      obtain ⟨ih', rest', k', hrun', hup', hk', hg⟩ := insertIntoParent_up (b := bound) hord₃ (h.halved_up hh)
        (h.halved_pages hh) hh.old (by rw [htake]; rfl) hN (by rw [hnew]; rfl) (by simpa using hb)
      obtain rfl : k' = P.lead := by
        rcases hk' with h | ⟨-, -, h⟩ <;> exact h
      exact ⟨ih', _, k, hrun.trans hrun', h.grown_up hh hg hlen hnew hup', Or.inl rfl, h.grown hh hg⟩
    · exact ⟨_, _, k, by rw [hstep, if_neg hfull], h.room_up (not_le.mp hfull), Or.inl rfl, h.room_grown⟩

/-! ### Replacing a separator -/

section Rekeyed

variable {ih : IxIndexHandle K} {L₁ L₂ : List (Inner K)} {P : Inner K} {rest : List (List (Inner K))}
  {A B : List (K × ℤ)} {k : K} {p : ℤ} {n X : Node K}

/-- The levels above the parent do not see its separators. -/
theorem Above.rekeyed_up (h : ih.Above L₁ P L₂ rest A k p B n X) {l : List (K × ℤ)}
    (hpg : ih.PagesOk (l.map (·.2) ++ upPages ((L₁ ++ P :: L₂) :: rest))) (f : K) :
    (ih.setPage P.page (X.setKey A.length f)).Up (L₁.map Inner.link ++ (P.lead, P.page) :: L₂.map Inner.link) rest := by
  have hup := h.up
  rw [List.map_append, List.map_cons] at hup
  refine @Up.congr K ih (ih.setPage P.page (X.setKey A.length f)) rfl rfl _ _ hup ?_ ?_
  · intro e he m hm
    by_cases heP : e.2 = P.page
    · rw [heP] at hm ⊢
      rw [h.page, Option.some.injEq] at hm
      exact ⟨_, Function.update_self _ _ _, by rw [← hm]; rfl⟩
    · exact ⟨m, (Function.update_of_ne heP _ _).trans hm, rfl⟩
  · intro x hx
    refine Function.update_of_ne (fun hxP => hpg.inner_notMem (n := P) (by simp) ?_) _ _
    rwa [hxP] at hx

/-- The parent's first key changes if the child is its first. -/
theorem Above.rekeyed_key (h : ih.Above L₁ P L₂ rest A k p B n X) (f : K) :
    (X.setKey A.length f).keyAt 0 = some (if A = [] then f else P.lead) := by
  obtain ⟨c, t, hct⟩ := h.lead_rekeyed f B
  unfold Node.keyAt
  rw [Node.setKey_slot h.pairs, hct]
  simp [slot]

/-- A change of the parent and of the levels above leaves the level below alone. -/
theorem Above.kid_kept (h : ih.Above L₁ P L₂ rest A k p B n X)
    (hpg : ih.PagesOk ((L₁.flatMap (·.kids) ++ A ++ (k, p) :: (B ++ L₂.flatMap (·.kids))).map (·.2) ++
      upPages ((L₁ ++ P :: L₂) :: rest))) {ih' : IxIndexHandle K}
    (hkeep : ∀ x, x ≠ P.page → x ∉ upPages rest → ih'.pages x = ih.pages x) {m : Inner K} (hm : m ∈ L₁ ++ P :: L₂)
    {e : K × ℤ} (he : e ∈ m.kids) : ih'.pages e.2 = ih.pages e.2 := by
  have hcur := h.mem_cur hm he
  exact hkeep _ (hpg.cur_ne_inner hcur (by simp)) fun hu => hpg.cur_notMem hcur (mem_upPages_cons.mpr (Or.inr hu))

/-- The other nodes of the level stay as they are. -/
theorem Above.rekeyed_other (h : ih.Above L₁ P L₂ rest A k p B n X)
    (hpg : ih.PagesOk ((L₁.flatMap (·.kids) ++ A ++ (k, p) :: (B ++ L₂.flatMap (·.kids))).map (·.2) ++
      upPages ((L₁ ++ P :: L₂) :: rest))) {ih' : IxIndexHandle K} (hord : ih'.btreeOrder = ih.btreeOrder)
    (hkeep : ∀ x, x ≠ P.page → x ∉ upPages rest → ih'.pages x = ih.pages x) {m : Inner K}
    (hm : m ∈ L₁ ∨ m ∈ L₂) : ih'.InnerOk m := by
  have hmem : m ∈ L₁ ++ P :: L₂ := by rcases hm with h | h <;> simp [h]
  refine (h.ok m hmem).congr hord (.of_eq ?_) fun e he => .of_eq (h.kid_kept hpg hkeep hmem he)
  exact hkeep _ (hpg.ne_of_split hm) (hpg.inner_notMem hmem)

/-- The parent with its new separator. -/
theorem Above.rekeyed_self (h : ih.Above L₁ P L₂ rest A k p B n X)
    (hpg : ih.PagesOk ((L₁.flatMap (·.kids) ++ A ++ (k, p) :: (B ++ L₂.flatMap (·.kids))).map (·.2) ++
      upPages ((L₁ ++ P :: L₂) :: rest))) {ih' : IxIndexHandle K} (hord : ih'.btreeOrder = ih.btreeOrder)
    (hkeep : ∀ x, x ≠ P.page → x ∉ upPages rest → ih'.pages x = ih.pages x) {f : K}
    (hself : ih'.pages P.page = some (X.setKey A.length f)) :
    ih'.InnerOk ⟨P.page, if A = [] then f else P.lead, A ++ (f, p) :: B⟩ := by
  have hPok := h.ok P (by simp)
  refine ⟨h.lead_rekeyed f B, ?_, ⟨_, hself, h.inner, Node.setKey_slot h.pairs⟩, ?_⟩
  · have hsize := hPok.size
    rw [h.kids] at hsize
    unfold maxSize at hsize ⊢
    rw [List.length_append, List.length_cons] at hsize ⊢
    rwa [hord]
  · intro e he
    obtain ⟨e', he', hee⟩ : ∃ e' ∈ P.kids, e'.2 = e.2 := by
      rw [h.kids]
      rw [List.mem_append, List.mem_cons] at he
      rcases he with he | rfl | he
      · exact ⟨e, by simp [he], rfl⟩
      · exact ⟨(k, p), by simp, rfl⟩
      · exact ⟨e, by simp [he], rfl⟩
    rw [← hee]
    exact (hPok.parents e' he').congr (.of_eq (h.kid_kept hpg hkeep (by simp) he'))

theorem Above.rekeyed_ok (h : ih.Above L₁ P L₂ rest A k p B n X)
    (hpg : ih.PagesOk ((L₁.flatMap (·.kids) ++ A ++ (k, p) :: (B ++ L₂.flatMap (·.kids))).map (·.2) ++
      upPages ((L₁ ++ P :: L₂) :: rest))) {ih' : IxIndexHandle K} (hord : ih'.btreeOrder = ih.btreeOrder)
    (hkeep : ∀ x, x ≠ P.page → x ∉ upPages rest → ih'.pages x = ih.pages x) {f : K}
    (hself : ih'.pages P.page = some (X.setKey A.length f)) :
    ∀ m ∈ L₁ ++ ⟨P.page, if A = [] then f else P.lead, A ++ (f, p) :: B⟩ :: L₂, ih'.InnerOk m := by
  intro m hm
  rw [List.mem_append, List.mem_cons] at hm
  rcases hm with hm | rfl | hm
  · exact h.rekeyed_other hpg hord hkeep (Or.inl hm)
  · exact h.rekeyed_self hpg hord hkeep hself
  · exact h.rekeyed_other hpg hord hkeep (Or.inr hm)

end Rekeyed

section Ordered

variable [LinearOrder K]

/-- **`maintain_parent`** replaces the separator above a node by the node's first key. -/
theorem maintainParent_up : ∀ {lvls : List (List (Inner K))} {ih : IxIndexHandle K} {U V : List (K × ℤ)} {k f : K}
    {p : ℤ} {n : Node K} {b : ℕ}, ih.Up (U ++ (k, p) :: V) lvls →
    ih.PagesOk ((U ++ (k, p) :: V).map (·.2) ++ upPages lvls) → ih.pages p = some n → n.keyAt 0 = some f →
    lvls.length < b →
    ∃ pages' lvls', maintainParent b ih p = some { ih with pages := pages' } ∧
      ({ ih with pages := pages' } : IxIndexHandle K).Up (U ++ (f, p) :: V) lvls' ∧ upPages lvls' = upPages lvls ∧
      ∀ x, x ∉ upPages lvls → pages' x = ih.pages x
  | [], ih, U, V, k, f, p, n, bound + 1, hup, hpg, hn, hf, _ => by
    obtain ⟨k₀, hcur, x, hx, hpar⟩ := hup
    obtain ⟨rfl, rfl, rfl, rfl⟩ := root_eq hcur
    obtain rfl : n = x := Option.some.inj (hn.symm.trans hx)
    refine ⟨ih.pages, [], ?_, ⟨f, rfl, n, hx, hpar⟩, rfl, fun _ _ => rfl⟩
    simp [maintainParent, fetchNode, hx, hpar]
  | lvl :: rest, ih, U, V, k, f, p, n, bound + 1, hup, hpg, hn, hf, hb => by
    obtain ⟨L₁, P, L₂, A, B, X, rfl, rfl, rfl, h⟩ := hup.above hn
    have hP : P.page ≠ IX_NO_PAGE := by
      have := (hpg.range P.page (by rw [upPages_cons]; simp)).1
      unfold IX_NO_PAGE
      omega
    have hchild := Node.findChild_slot h.pairs hpg.notMem_kids
    have hkey := Node.keyAt_slot h.pairs
    by_cases hkf : k = f
    · -- the separator is already right
      subst hkf
      refine ⟨ih.pages, (L₁ ++ P :: L₂) :: rest, ?_, hup, rfl, fun _ _ => rfl⟩
      simp only [maintainParent, fetchNode, hn, h.parent, h.page, hchild, hkey, hf, Option.bind_eq_bind,
        Option.bind_some, if_true]
      rw [if_neg hP]
    · -- write it, and go on with the parent
      have hset : ∀ x, x ≠ P.page → (ih.setPage P.page (X.setKey A.length f)).pages x = ih.pages x :=
        fun x hx => Function.update_of_ne hx _ _
      have hself : (ih.setPage P.page (X.setKey A.length f)).pages P.page = some (X.setKey A.length f) :=
        Function.update_self _ _ _
      have hpg' : (ih.setPage P.page (X.setKey A.length f)).PagesOk
          ((L₁.map Inner.link ++ (P.lead, P.page) :: L₂.map Inner.link).map (·.2) ++ upPages rest) := by
        have hlvl := hpg.level
        rw [List.map_append (f := Inner.link), List.map_cons] at hlvl
        exact ⟨hlvl.nodup, hlvl.range⟩
      obtain ⟨pages', rest', hrun, hup', hpages, hframe⟩ :=
        maintainParent_up (b := bound) (h.rekeyed_up hpg f) hpg' hself (h.rekeyed_key f) (by simpa using hb)
      have hkeep : ∀ x, x ≠ P.page → x ∉ upPages rest → pages' x = ih.pages x := fun x h1 h2 =>
        (hframe x h2).trans (hset x h1)
      have hselfP : pages' P.page = some (X.setKey A.length f) :=
        (hframe _ (hpg.inner_notMem (n := P) (by simp))).trans hself
      have hord : ({ ih with pages := pages' } : IxIndexHandle K).btreeOrder = ih.btreeOrder := rfl
      refine ⟨pages', (L₁ ++ ⟨P.page, if A = [] then f else P.lead, A ++ (f, p) :: B⟩ :: L₂) :: rest', ?_,
        ⟨by simp, h.rekeyed_ok hpg hord hkeep hselfP, ?_⟩, ?_, ?_⟩
      · simp only [maintainParent, fetchNode, hn, h.parent, h.page, hchild, hkey, hf, Option.bind_eq_bind,
          Option.bind_some]
        rw [if_neg hP, if_neg hkf, hrun]
        rfl
      · rw [List.map_append, List.map_cons]
        exact hup'
      · rw [upPages_cons, upPages_cons, hpages]
        simp
      · intro x hx
        rw [mem_upPages_cons, not_or] at hx
        exact hkeep x (fun hxP => hx.1 (by rw [hxP]; simp)) hx.2

end Ordered

end IxIndexHandle

end Rmdb.Index
