import Rmdb.Index.Climb
import Rmdb.Common.Compare
import Rmdb.Lib.Trace
import Mathlib.Data.List.Induction
import Mathlib.Data.List.Perm.Subperm

/-!
# The index is a finite map

The operations of the index handle, seen through the invariant of `Index.Shape`. A
descent from the root ends in the leaf whose range holds the key (`findLeafPage_eq`), so
`get_value` reads the concatenation of the leaves (`getValue_eq`). `insert_entry` and
`delete_entry` keep the invariant and change that concatenation by one entry
(`insertEntry_absent`, `deleteEntry_present`), and the run of any sequence of calls on a
fresh index is the run of a finite map (`run_inv`).

None of the assertions of the source fails on the way, and no loop runs past its bound.
-/

namespace Rmdb.Index

open Lib

variable {K : Type}

namespace IxIndexHandle

/-! ### The height of the tree -/

theorem Up.level_ne_nil {ih : IxIndexHandle K} : ∀ {lvls : List (List (Inner K))} {cur : List (K × ℤ)},
    ih.Up cur lvls → cur ≠ [] ∧ lvls.length ≤ (upPages lvls).length
  | [], cur, ⟨k, hcur, _⟩ => ⟨by rw [hcur]; simp, by simp [upPages]⟩
  | lvl :: rest, cur, ⟨hcur, hok, hrest⟩ => by
    obtain ⟨hne, hlen⟩ := hrest.level_ne_nil
    obtain ⟨n, hn⟩ := List.exists_mem_of_ne_nil lvl fun h => hne (by rw [h]; rfl)
    obtain ⟨c, t, hct⟩ := (hok n hn).lead
    constructor
    · rw [← hcur]
      intro h
      have : (n.lead, c) ∈ lvl.flatMap (·.kids) := List.mem_flatMap.mpr ⟨n, hn, by rw [hct]; simp⟩
      rw [h] at this
      cases this
    · have := List.length_pos_of_mem hn
      rw [upPages_cons, List.length_append, List.length_map, List.length_cons]
      omega

theorem Up.root_mem {ih : IxIndexHandle K} : ∀ {lvls : List (List (Inner K))} {cur : List (K × ℤ)},
    ih.Up cur lvls → ih.rootPage ∈ cur.map (·.2) ++ upPages lvls
  | [], cur, ⟨k, hcur, _⟩ => by simp [hcur]
  | lvl :: rest, cur, ⟨_, _, hrest⟩ => by
    have := hrest.root_mem
    rw [List.map_map] at this
    rw [upPages_cons]
    exact List.mem_append_right _ this

theorem PagesOk.length_lt {ih : IxIndexHandle K} {l : List ℤ} (h : ih.PagesOk l) (hne : l ≠ []) :
    l.length < ih.fd2pageno.toNat := by
  obtain ⟨x₀, hx₀⟩ := List.exists_mem_of_ne_nil l hne
  have h0 := h.range x₀ hx₀
  -- the pages other than page `0` are distinct numbers below the counter
  have hnd : (l.map Int.toNat).Nodup := by
    refine List.Nodup.map_on ?_ h.nodup
    intro x hx y hy hxy
    have := h.range x hx
    have := h.range y hy
    omega
  have hsub : (0 :: l.map Int.toNat) ⊆ List.range ih.fd2pageno.toNat := by
    intro x hx
    rw [List.mem_range]
    rcases List.mem_cons.mp hx with rfl | hx
    · omega
    · obtain ⟨y, hy, rfl⟩ := List.mem_map.mp hx
      have := h.range y hy
      omega
  have hnd0 : (0 :: l.map Int.toNat).Nodup := by
    refine List.nodup_cons.mpr ⟨?_, hnd⟩
    intro h'
    obtain ⟨y, hy, hy0⟩ := List.mem_map.mp h'
    have := h.range y hy
    omega
  have := (List.subperm_of_subset hnd0 hsub).length_le
  rw [List.length_cons, List.length_map, List.length_range] at this
  omega

/-- The bound on the loops is above the height. -/
theorem height_lt {ih : IxIndexHandle K} {cur : List (K × ℤ)} {lvls : List (List (Inner K))} (hup : ih.Up cur lvls)
    (hpg : ih.PagesOk (cur.map (·.2) ++ upPages lvls)) : lvls.length + 1 < ih.fd2pageno.toNat := by
  obtain ⟨hne, hlen⟩ := hup.level_ne_nil
  have hpos : 0 < cur.length := List.length_pos_iff.mpr hne
  have := hpg.length_lt (by simp [hne])
  rw [List.length_append, List.length_map] at this
  omega

/-! ### The chain of leaves -/

theorem Chain.nextLeaf_eq {ih : IxIndexHandle K} {p : ℤ} {X : Node K} {P₂ : List ℤ} (hX : ih.pages p = some X) :
    ∀ {P₁ : List ℤ} {prev : ℤ}, ih.Chain prev (P₁ ++ p :: P₂) → X.nextLeaf = P₂.headD IX_LEAF_HEADER_PAGE
  | [], _, ⟨⟨x, hx, _, hxn⟩, _⟩ => by rw [Option.some.inj (hX.symm.trans hx), hxn]
  | _ :: _, _, ⟨_, hch⟩ => Chain.nextLeaf_eq hX hch

/-- The new leaf is in the chain, to the right of the one that was split. -/
theorem Chain.split {ih ih' : IxIndexHandle K} {p N par next : ℤ} {X : Node K} {es es' : List (K × Rid)} {P₂ : List ℤ}
    (hX : ih.pages p = some X) (hnext : next = P₂.headD IX_LEAF_HEADER_PAGE)
    (h1 : ∀ y ∈ P₂, y ≠ IX_LEAF_HEADER_PAGE)
    (hN : ih'.pages N = some ⟨true, par, p, next, es'⟩) (hp : ih'.pages p = some { X with pairs := es, nextLeaf := N })
    (hn : next ≠ IX_LEAF_HEADER_PAGE → ih'.pages next = (ih.pages next).map fun n => { n with prevLeaf := N })
    (hother : ∀ y, y ≠ N → y ≠ p → (next ≠ IX_LEAF_HEADER_PAGE → y ≠ next) → ih'.pages y = ih.pages y) :
    ∀ {P₁ : List ℤ} {prev : ℤ}, ih.Chain prev (P₁ ++ p :: P₂) → (P₁ ++ p :: P₂).Nodup → N ∉ P₁ ++ p :: P₂ →
      ih'.Chain prev (P₁ ++ p :: N :: P₂)
  | [], prev, ⟨⟨x, hx, hprev, hxn⟩, hch⟩, hnd, hfresh => by
    obtain rfl : X = x := Option.some.inj (hX.symm.trans hx)
    refine ⟨⟨_, hp, hprev, rfl⟩, ⟨_, hN, rfl, hnext⟩, ?_⟩
    cases P₂ with
    | nil => trivial
    | cons q P₃ =>
      obtain rfl : next = q := hnext
      obtain ⟨⟨y, hy, -, hyn⟩, hch'⟩ := hch
      have hne := h1 next List.mem_cons_self
      refine ⟨⟨{ y with prevLeaf := N }, by rw [hn hne, hy]; rfl, rfl, hyn⟩, hch'.congr ?_⟩
      intro z hz n hzn
      simp only [List.nil_append, List.nodup_cons, List.mem_cons, not_or] at hnd hfresh
      refine ⟨n, (hother z ?_ ?_ ?_).trans hzn, rfl, rfl⟩
      · exact fun h => hfresh.2.2 (h ▸ hz)
      · exact fun h => hnd.1.2 (h ▸ hz)
      · intro _
        exact fun h => hnd.2.1 (h ▸ hz)
  | a :: P₁, prev, ⟨⟨x, hx, hprev, hxn⟩, hch⟩, hnd, hfresh => by
    simp only [List.cons_append, List.nodup_cons, List.mem_cons, List.mem_append, not_or] at hnd hfresh
    refine ⟨⟨x, (hother a ?_ ?_ ?_).trans hx, hprev, ?_⟩, ?_⟩
    · exact Ne.symm hfresh.1
    · exact hnd.1.2.1
    · intro hne han
      -- the leaf on the right of `p` is behind `p`, not before it
      cases P₂ with
      | nil => exact hne hnext
      | cons q P₃ =>
        have hq : next = q := hnext
        exact hnd.1.2.2 (by rw [han, hq]; exact List.mem_cons_self)
    · rw [hxn]
      cases P₁ <;> rfl
    · refine Chain.split hX hnext h1 hN hp hn hother hch hnd.2 ?_
      simp only [List.mem_append, List.mem_cons, not_or]
      exact hfresh.2

/-! ### Descending -/

section Ordered

variable [LinearOrder K]

theorem sorted_links {lvl : List (Inner K)} (hlead : ∀ n ∈ lvl, ∃ c t, n.kids = (n.lead, c) :: t)
    (hs : SortedKeys (lvl.flatMap (·.kids))) : SortedKeys (lvl.map Inner.link) ∧ ∀ n ∈ lvl, SortedKeys n.kids := by
  obtain ⟨h1, h2⟩ := List.pairwise_flatMap.mp hs
  refine ⟨List.pairwise_map.mpr (h2.imp_of_mem fun {a b} ha hb h => ?_), h1⟩
  obtain ⟨c, t, hct⟩ := hlead a ha
  obtain ⟨c', t', hct'⟩ := hlead b hb
  exact h (a.lead, c) (by rw [hct]; simp) (b.lead, c') (by rw [hct']; simp)

theorem internalLookup_slots {X : Node K} {kids : List (K × ℤ)} (hX : X.pairs = kids.map slot)
    (hs : SortedKeys kids) (hne : kids ≠ []) (key : K) :
    ∃ c, X.internalLookup key = some c ∧ Route kids key c := by
  have hsX : SortedKeys X.pairs := by
    rw [hX]
    exact List.pairwise_map.mpr hs
  obtain ⟨c, hc, hroute⟩ := Node.internalLookup_route hsX (by rw [hX]; simpa using hne) key
  refine ⟨c, hc, ?_⟩
  rw [hX, List.map_map] at hroute
  have hid : (fun e : K × Rid => (e.1, e.2.pageNo)) ∘ slot = (id : K × ℤ → K × ℤ) := rfl
  rwa [hid, List.map_id] at hroute

/-- The loop of `find_leaf_page` takes one step a level and routes the key in the bottom level. -/
theorem findLeafLoop_route {ih : IxIndexHandle K} (key : K) :
    ∀ {lvls : List (List (Inner K))} {cur : List (K × ℤ)}, ih.Up cur lvls → SortedKeys cur → ∀ bound : ℕ,
      ∃ c, Route cur key c ∧
        ih.findLeafLoop key false (bound + lvls.length) ih.rootPage = ih.findLeafLoop key false bound c
  | [], cur, ⟨k, hcur, _⟩, _, bound =>
    ⟨ih.rootPage, ⟨[], k, [], hcur, by simp, by simp⟩, rfl⟩
  | lvl :: rest, cur, ⟨hcur, hok, hrest⟩, hs, bound => by
    have hlead : ∀ n ∈ lvl, ∃ c t, n.kids = (n.lead, c) :: t := fun n hn => (hok n hn).lead
    obtain ⟨hlinks, hkids⟩ := sorted_links hlead (hcur ▸ hs)
    obtain ⟨c, ⟨A, s, B, hA, hle, hlt⟩, hrun⟩ := findLeafLoop_route key hrest hlinks (bound + 1)
    -- the node the descent is at, and the child it takes
    obtain ⟨L₁, L', rfl, rfl, hL'⟩ := List.map_eq_append_iff.mp hA
    obtain ⟨P, L₂, rfl, hP, rfl⟩ := List.map_eq_cons_iff.mp hL'
    obtain ⟨rfl, rfl⟩ := Prod.mk.inj hP
    have hPmem : P ∈ L₁ ++ P :: L₂ := by simp
    obtain ⟨X, hX, hXleaf, hXpairs⟩ := (hok P hPmem).node
    obtain ⟨c₀, t₀, hct⟩ := hlead P hPmem
    obtain ⟨c, hc, hroute⟩ := internalLookup_slots hXpairs (hkids P hPmem) (by rw [hct]; simp) key
    refine ⟨c, ?_, ?_⟩
    · rw [← hcur]
      refine Route.flatMap (g := Inner.lead) (b := P) hlead hkids ⟨L₁.map fun n => (n.lead, n), P.lead,
        L₂.map fun n => (n.lead, n), by simp, fun hne => hle (by simpa using hne), ?_⟩ hroute
      intro b hb
      obtain ⟨n, hn, rfl⟩ := List.mem_map.mp hb
      exact hlt n.link (List.mem_map_of_mem hn)
    · rw [List.length_cons, show bound + (rest.length + 1) = bound + 1 + rest.length by omega, hrun]
      simp only [findLeafLoop, fetchNode, hX, hXleaf, hc, Option.bind_eq_bind, Option.bind_some, Bool.false_eq_true,
        if_false]

/-! ### The leaf of a key -/

theorem RangesOk.sorted_links {lv : List (Leaf K)} (h : RangesOk lv) : SortedKeys (lv.map Leaf.link) :=
  List.pairwise_map.mpr (h.ranges.imp fun hab => hab.1)

/-- `lv = A ++ l :: B`, and the range of the leaf `l` is the one the key is in. -/
structure InLeaf (lv A : List (Leaf K)) (l : Leaf K) (B : List (Leaf K)) (key : K) : Prop where
  split : lv = A ++ l :: B
  lower : A ≠ [] → l.sep ≤ key
  upper : ∀ b ∈ B, key < b.sep

theorem Inv.link_pages {ih : IxIndexHandle K} {lv : List (Leaf K)} {lvls : List (List (Inner K))}
    (h : ih.Inv lv lvls) : ih.PagesOk ((lv.map Leaf.link).map (·.2) ++ upPages lvls) := by
  rw [List.map_map]
  exact h.pages

/-- **`find_leaf_page`** finds the leaf whose range holds the key. -/
theorem findLeafPage_eq {ih : IxIndexHandle K} {lv : List (Leaf K)} {lvls : List (List (Inner K))}
    (h : ih.Inv lv lvls) (key : K) :
    ∃ A l B, InLeaf lv A l B key ∧ ih.findLeafPage key false = some (some l.page) := by
  have hpg := h.link_pages
  have hheight := height_lt h.up hpg
  obtain ⟨c, ⟨A', s, B', hlv, hle, hlt⟩, hrun⟩ :=
    findLeafLoop_route key h.up h.keys.sorted_links (ih.fd2pageno.toNat - lvls.length)
  obtain ⟨A, L', rfl, rfl, hL'⟩ := List.map_eq_append_iff.mp hlv
  obtain ⟨l, B, rfl, hl, rfl⟩ := List.map_eq_cons_iff.mp hL'
  obtain ⟨rfl, rfl⟩ := Prod.mk.inj hl
  refine ⟨A, l, B, ⟨rfl, fun hA => hle (by simpa using hA), fun b hb => hlt b.link (List.mem_map_of_mem hb)⟩, ?_⟩
  have hroot : ih.isEmpty = false := by
    have := (hpg.range _ h.up.root_mem).1
    unfold isEmpty IX_NO_PAGE
    exact decide_eq_false (by omega)
  obtain ⟨x, hx, hleaf, -⟩ := (h.leaves l (by simp)).node
  unfold findLeafPage
  rw [hroot, if_neg (by simp)]
  rw [show ih.fd2pageno.toNat - lvls.length + lvls.length = ih.fd2pageno.toNat by omega] at hrun
  obtain ⟨b, hb⟩ : ∃ b, ih.fd2pageno.toNat - lvls.length = b + 1 := ⟨ih.fd2pageno.toNat - lvls.length - 1, by omega⟩
  rw [hrun, hb]
  simp [findLeafLoop, fetchNode, hx, hleaf]

/-- The key is in its leaf or nowhere. -/
theorem InLeaf.outside {lv A B : List (Leaf K)} {l : Leaf K} {key : K} (hin : InLeaf lv A l B key) (h : RangesOk lv) :
    (∀ e ∈ contents A, e.1 ≠ key) ∧ ∀ e ∈ contents B, e.1 ≠ key := by
  obtain ⟨rfl, hlo, hhi⟩ := hin
  constructor
  · intro e he
    obtain ⟨a, ha, hea⟩ := List.mem_flatMap.mp he
    have hlt := ((List.pairwise_append.mp h.ranges).2.2 a ha l List.mem_cons_self).2 e hea
    exact (hlt.trans_le (hlo (List.ne_nil_of_mem ha))).ne
  · intro e he
    obtain ⟨b, hb, heb⟩ := List.mem_flatMap.mp he
    have hmem : b ∈ (A ++ l :: B).tail := by
      cases A with
      | nil => exact hb
      | cons a A => simp [hb]
    exact ((hhi b hb).trans_le (h.lower b hmem e heb)).ne'

theorem InLeaf.lookup {lv A B : List (Leaf K)} {l : Leaf K} {key : K} (hin : InLeaf lv A l B key) (h : RangesOk lv) :
    lookupKey (contents lv) key = lookupKey l.entries key := by
  obtain ⟨hA, hB⟩ := hin.outside h
  replace hA := lookupKey_of_ne hA
  replace hB := lookupKey_of_ne hB
  unfold contents at hA hB ⊢
  rw [hin.split, List.flatMap_append, List.flatMap_cons, lookupKey_append, lookupKey_append, hA, hB]
  simp

theorem RangesOk.bounds {A B : List (Leaf K)} {l : Leaf K} (h : RangesOk (A ++ l :: B)) :
    (A ≠ [] → ∀ e ∈ l.entries, l.sep ≤ e.1) ∧ ∀ e ∈ l.entries, ∀ b ∈ B, e.1 < b.sep := by
  refine ⟨fun hA => h.lower l ?_, ?_⟩
  · cases A with
    | nil => exact absurd rfl hA
    | cons a A => simp
  · intro e he b hb
    exact ((List.pairwise_cons.mp (List.pairwise_append.mp h.ranges).2.1).1 b hb).2 e he

/-- **`get_value`** looks the key up in the leaves. -/
theorem Inv.getValue_eq {ih : IxIndexHandle K} {lv : List (Leaf K)} {lvls : List (List (Inner K))} (h : ih.Inv lv lvls)
    (key : K) : ih.getValue key = some (lookupKey (contents lv) key) := by
  obtain ⟨A, l, B, hin, hfind⟩ := findLeafPage_eq h key
  have hl := h.leaves l (by rw [hin.split]; simp)
  obtain ⟨x, hx, -, hpairs⟩ := hl.node
  have hlook : x.leafLookup key = lookupKey l.entries key := by
    rw [← hpairs]
    exact Node.leafLookup_eq (hpairs ▸ hl.sorted) key
  unfold getValue
  simp only [hfind, Option.bind_eq_bind, Option.bind_some, fetchNode, hx, hlook]
  rw [hin.lookup h.keys]

/-! ### Replacing a leaf -/

/-- Every key of `a`, and its separator, is below the separator of `b`. -/
def Below (a b : Leaf K) : Prop := a.sep < b.sep ∧ ∀ e ∈ a.entries, e.1 < b.sep

/-- A leaf may be replaced by leaves of its own range. -/
theorem RangesOk.replace {A B M : List (Leaf K)} {l : Leaf K} (h : RangesOk (A ++ l :: B)) (hM : M.Pairwise Below)
    (hlo : A ≠ [] → ∀ m ∈ M, l.sep ≤ m.sep) (hhi : ∀ m ∈ M, ∀ b ∈ B, Below m b)
    (hlow : ∀ m ∈ M, A ≠ [] ∨ m ∈ M.tail → ∀ e ∈ m.entries, m.sep ≤ e.1) : RangesOk (A ++ (M ++ B)) := by
  obtain ⟨hA, hlB, hAl⟩ := List.pairwise_append.mp h.ranges
  obtain ⟨-, hB⟩ := List.pairwise_cons.mp hlB
  refine ⟨List.pairwise_append.mpr ⟨hA, List.pairwise_append.mpr ⟨hM, hB, hhi⟩, ?_⟩, ?_⟩
  · intro a ha b hb
    rcases List.mem_append.mp hb with hb | hb
    · have hle := hlo (List.ne_nil_of_mem ha) b hb
      have hal := hAl a ha l List.mem_cons_self
      exact ⟨hal.1.trans_le hle, fun e he => (hal.2 e he).trans_le hle⟩
    · exact hAl a ha b (List.mem_cons_of_mem _ hb)
  · intro m hm
    have hmB : m ∈ B → ∀ e ∈ m.entries, m.sep ≤ e.1 := fun hmB => h.lower m (by
      cases A with
      | nil => exact hmB
      | cons a A => simp [hmB])
    cases A with
    | nil =>
      cases M with
      | nil => exact hmB (List.mem_of_mem_tail hm)
      | cons m₀ M =>
        rcases List.mem_append.mp hm with hm | hm
        · exact hlow m (List.mem_cons_of_mem _ hm) (Or.inr hm)
        · exact hmB hm
    | cons a A =>
      simp only [List.cons_append, List.tail_cons, List.mem_append] at hm
      rcases hm with hm | hm | hm
      · exact h.lower m (by simp [hm])
      · exact hlow m hm (Or.inl (by simp))
      · exact hmB hm

/-- The inner levels do not see the entries of a leaf. -/
theorem Inv.up_setPage {ih : IxIndexHandle K} {A B : List (Leaf K)} {l : Leaf K} {lvls : List (List (Inner K))}
    (h : ih.Inv (A ++ l :: B) lvls) {x : Node K} (hx : ih.pages l.page = some x) (es : List (K × Rid)) :
    (ih.setPage l.page { x with pairs := es }).Up (A.map Leaf.link ++ (l.sep, l.page) :: B.map Leaf.link) lvls := by
  have hup := h.up
  have hpg := h.link_pages
  rw [List.map_append, List.map_cons] at hup hpg
  refine @Up.congr K ih (ih.setPage l.page { x with pairs := es }) rfl rfl _ _ hup ?_ fun y hy => Function.update_of_ne ?_ _ _
  · intro e _ y hy
    by_cases he : e.2 = l.page
    · rw [he] at hy ⊢
      refine ⟨_, Function.update_self _ _ _, ?_⟩
      rw [hx, Option.some.injEq] at hy
      rw [← hy]
    · exact ⟨y, (Function.update_of_ne he _ _).trans hy, rfl⟩
  · intro hyl
    refine hpg.cur_notMem (e := l.link) (by simp) ?_
    rwa [hyl] at hy

/-- Rewriting the entries of a leaf, and then its separator, keeps the invariant. -/
theorem Inv.rewriteLeaf {ih : IxIndexHandle K} {A B : List (Leaf K)} {l m : Leaf K} {lvls lvls' : List (List (Inner K))}
    {x : Node K} {g : ℤ → Option (Node K)} (h : ih.Inv (A ++ l :: B) lvls) (hx : ih.pages l.page = some x)
    (hpage : m.page = l.page) (hsorted : SortedKeys m.entries) (hsize : m.entries.length < ih.maxSize)
    (hfresh : m.entries.length = ih.btreeOrder → ∀ e ∈ m.entries, m.sep ≤ e.1) (hkeys : RangesOk (A ++ m :: B))
    (hup : ({ ih with pages := g } : IxIndexHandle K).Up (A.map Leaf.link ++ m.link :: B.map Leaf.link) lvls')
    (hlvls : upPages lvls' = upPages lvls)
    (hpages : ∀ y, y ∉ upPages lvls → g y = (ih.setPage l.page { x with pairs := m.entries }).pages y) :
    ({ ih with pages := g } : IxIndexHandle K).Inv (A ++ m :: B) lvls' := by
  have hmap : (A ++ m :: B).map (·.page) = (A ++ l :: B).map (·.page) := by simp [hpage]
  have hleafpage : ∀ y ∈ (A ++ l :: B).map (·.page), y ∉ upPages lvls := fun y hy hyu =>
    (List.nodup_append.mp h.pages.nodup).2.2 y hy y hyu rfl
  have hself : g l.page = some { x with pairs := m.entries } := by
    rw [hpages l.page (hleafpage _ (by simp))]
    exact Function.update_self _ _ _
  have hother : ∀ l', l' ∈ A ∨ l' ∈ B → g l'.page = ih.pages l'.page := by
    intro l' hm
    have hmem : l'.page ∈ (A ++ l :: B).map (·.page) :=
      List.mem_map_of_mem (by rcases hm with h | h <;> simp [h])
    rw [hpages l'.page (hleafpage _ hmem)]
    refine Function.update_of_ne ?_ _ _
    intro hml
    have hnd := (List.nodup_append.mp h.pages.nodup).1
    rw [List.map_append, List.map_cons] at hnd
    obtain ⟨-, h2, h3⟩ := List.nodup_append.mp hnd
    rcases hm with hm | hm
    · exact h3 _ (List.mem_map_of_mem hm) _ List.mem_cons_self hml
    · exact (List.nodup_cons.mp h2).1 (hml ▸ List.mem_map_of_mem hm)
  refine ⟨h.order, by rwa [List.map_append, List.map_cons], ?_, ?_, hkeys, ?_, ?_, ?_⟩
  · rw [hmap, hlvls]
    exact ⟨h.pages.nodup, h.pages.range⟩
  · intro l' hm
    rw [List.mem_append, List.mem_cons] at hm
    have hold : l' ∈ A ∨ l' ∈ B → ({ ih with pages := g } : IxIndexHandle K).LeafOk l' := fun hm =>
      (h.leaves l' (by rcases hm with h | h <;> simp [h])).congr rfl fun n hn => ⟨n, (hother l' hm).trans hn, rfl, rfl⟩
    rcases hm with hm | rfl | hm
    · exact hold (Or.inl hm)
    · obtain ⟨y, hy, hyleaf, -⟩ := (h.leaves l (by simp)).node
      obtain rfl : y = x := Option.some.inj (hy.symm.trans hx)
      rw [← hpage] at hself
      exact ⟨⟨_, hself, hyleaf, rfl⟩, hsorted, hsize, hfresh⟩
    · exact hold (Or.inr hm)
  · rw [hmap]
    refine h.chain.congr ?_
    intro y hy n hn
    obtain ⟨l', hm, rfl⟩ := List.mem_map.mp hy
    rw [List.mem_append, List.mem_cons] at hm
    rcases hm with hm | rfl | hm
    · exact ⟨n, (hother l' (Or.inl hm)).trans hn, rfl, rfl⟩
    · obtain rfl : n = x := Option.some.inj (hn.symm.trans hx)
      exact ⟨_, hself, rfl, rfl⟩
    · exact ⟨n, (hother l' (Or.inr hm)).trans hn, rfl, rfl⟩
  · rw [hmap]
    exact h.first
  · rw [hmap]
    exact h.last

/-- Rewriting the entries of a leaf and refreshing its separator, as both `insert_entry` and `delete_entry` do. -/
theorem Inv.refreshLeaf {ih : IxIndexHandle K} {A B : List (Leaf K)} {l : Leaf K} {lvls : List (List (Inner K))}
    {x : Node K} {f : K} {r : Rid} {es : List (K × Rid)} (h : ih.Inv (A ++ l :: B) lvls)
    (hx : ih.pages l.page = some x) (hsorted : SortedKeys ((f, r) :: es)) (hsize : ((f, r) :: es).length < ih.maxSize)
    (hlo : A ≠ [] → l.sep ≤ f) (hhi : ∀ e ∈ (f, r) :: es, ∀ b ∈ B, e.1 < b.sep) :
    ∃ ih' lvls', maintainParent ih.fd2pageno.toNat (ih.setPage l.page { x with pairs := (f, r) :: es }) l.page =
      some ih' ∧ ih'.Inv (A ++ ⟨f, l.page, (f, r) :: es⟩ :: B) lvls' := by
  have hpg := h.link_pages
  rw [List.map_append, List.map_cons] at hpg
  have hheight := height_lt h.up h.link_pages
  have hup₁ := h.up_setPage hx ((f, r) :: es)
  obtain ⟨pages', lvls', hrun, hup, hlvls, hframe⟩ := maintainParent_up hup₁ ⟨hpg.nodup, hpg.range⟩
    (Function.update_self _ _ _) (f := f) rfl (b := ih.fd2pageno.toNat) (by omega)
  have hf : ∀ e ∈ (f, r) :: es, f ≤ e.1 := by
    intro e he
    rcases List.mem_cons.mp he with rfl | he
    · exact le_refl _
    · exact ((SortedKeys.cons_iff.mp hsorted).1 e he).le
  refine ⟨_, lvls', hrun, h.rewriteLeaf (m := ⟨f, l.page, (f, r) :: es⟩) hx rfl hsorted hsize (fun _ => hf) ?_ hup
    hlvls hframe⟩
  refine h.keys.replace (M := [⟨f, l.page, (f, r) :: es⟩]) (List.pairwise_singleton _ _) ?_ ?_ ?_
  · intro hA m hm
    obtain rfl := List.mem_singleton.mp hm
    exact hlo hA
  · intro m hm b hb
    obtain rfl := List.mem_singleton.mp hm
    exact ⟨hhi (f, r) List.mem_cons_self b hb, fun e he => hhi e he b hb⟩
  · intro m hm _
    obtain rfl := List.mem_singleton.mp hm
    exact hf

/-! ### Splitting a leaf -/

/-- The two halves of a leaf keep to its range. -/
theorem RangesOk.halves {A B : List (Leaf K)} {l : Leaf K} {k' newKey f : K} {p N : ℤ} {r₀ r₁ : Rid}
    {t t' : List (K × Rid)} (h : RangesOk (A ++ l :: B)) (hsorted : SortedKeys (((f, r₁) :: t') ++ (newKey, r₀) :: t))
    (hlo : A ≠ [] → ∀ e ∈ ((f, r₁) :: t') ++ (newKey, r₀) :: t, l.sep ≤ e.1)
    (hhi : ∀ e ∈ ((f, r₁) :: t') ++ (newKey, r₀) :: t, ∀ b ∈ B, e.1 < b.sep) (hsep : l.sep < newKey)
    (hk : k' = l.sep ∨ A = [] ∧ B = [] ∧ k' = f) :
    RangesOk (A ++ ([⟨k', p, (f, r₁) :: t'⟩, ⟨newKey, N, (newKey, r₀) :: t⟩] ++ B)) := by
  obtain ⟨-, hright, hcross⟩ := SortedKeys.append_iff.mp hsorted
  have hkA : A ≠ [] → k' = l.sep := fun hA => hk.resolve_right fun h' => hA h'.1
  have hkB : B ≠ [] → k' = l.sep := fun hB => hk.resolve_right fun h' => hB h'.2.1
  have hkN : k' < newKey := by
    rcases hk with rfl | ⟨-, -, rfl⟩
    · exact hsep
    · exact hcross (k', r₁) List.mem_cons_self (newKey, r₀) List.mem_cons_self
  have hrightle : ∀ e ∈ (newKey, r₀) :: t, newKey ≤ e.1 := by
    intro e he
    rcases List.mem_cons.mp he with rfl | he
    · exact le_refl _
    · exact ((SortedKeys.cons_iff.mp hright).1 e he).le
  refine h.replace ?_ ?_ ?_ ?_
  · refine List.pairwise_pair.mpr ⟨hkN, fun e he => hcross e he (newKey, r₀) List.mem_cons_self⟩
  · intro hA m hm
    rcases List.mem_pair.mp hm with rfl | rfl
    · exact (hkA hA).ge
    · exact hsep.le
  · intro m hm b hb
    rcases List.mem_pair.mp hm with rfl | rfl
    · have hlb := ((List.pairwise_cons.mp (List.pairwise_append.mp h.ranges).2.1).1 b hb).1
      refine ⟨?_, fun e he => hhi e (List.mem_append_left _ he) b hb⟩
      change k' < b.sep
      rwa [hkB (List.ne_nil_of_mem hb)]
    · exact ⟨hhi (newKey, r₀) (by simp) b hb, fun e he => hhi e (List.mem_append_right _ he) b hb⟩
  · intro m hm hcase
    have hright' : m = ⟨newKey, N, (newKey, r₀) :: t⟩ → ∀ e ∈ m.entries, m.sep ≤ e.1 := by
      rintro rfl
      exact hrightle
    rcases hcase with hA | htail
    · rcases List.mem_pair.mp hm with rfl | hm
      · intro e he
        change k' ≤ e.1
        rw [hkA hA]
        exact hlo hA e (List.mem_append_left _ he)
      · exact hright' hm
    · exact hright' (List.mem_singleton.mp htail)

/-- The leaf `l`, with the entries `es`, has been split; `ih₂` is the handle after it. -/
structure Splitting (ih ih₂ : IxIndexHandle K) (A : List (Leaf K)) (l : Leaf K) (B : List (Leaf K))
    (lvls : List (List (Inner K))) (x : Node K) (es : List (K × Rid)) : Prop where
  inv : ih.Inv (A ++ l :: B) lvls
  page : ih.pages l.page = some x
  leaf : x.isLeaf = true
  sorted : SortedKeys es
  size : es.length = ih.maxSize
  halved : LeafHalved (ih.setPage l.page { x with pairs := es }) ih₂ l.page { x with pairs := es }

section Splitting

variable {ih ih₂ ih' : IxIndexHandle K} {A B : List (Leaf K)} {l m : Leaf K} {lvls lvls' : List (List (Inner K))}
  {x n : Node K} {es : List (K × Rid)} {newKey : K}

theorem Inv.nextLeaf_mem (h : ih.Inv (A ++ l :: B) lvls) (hx : ih.pages l.page = some x)
    (hne : x.nextLeaf ≠ IX_LEAF_HEADER_PAGE) : x.nextLeaf ∈ B.map (·.page) := by
  have hchain := h.chain
  rw [List.map_append, List.map_cons] at hchain
  rw [Chain.nextLeaf_eq hx hchain] at hne ⊢
  cases B with
  | nil => exact absurd rfl hne
  | cons b B => simp

theorem Inv.page_notMem (h : ih.Inv (A ++ l :: B) lvls) : l.page ∉ A.map (·.page) ∧ l.page ∉ B.map (·.page) := by
  have hnd := (List.nodup_append.mp h.pages.nodup).1
  rw [List.map_append, List.map_cons] at hnd
  obtain ⟨-, h2, h3⟩ := List.nodup_append.mp hnd
  refine ⟨?_, (List.nodup_cons.mp h2).1⟩
  intro hmem
  exact h3 _ hmem _ List.mem_cons_self rfl

theorem Inv.page_ne (h : ih.Inv (A ++ l :: B) lvls) (hm : m ∈ A ∨ m ∈ B) : m.page ≠ l.page := by
  intro heq
  rcases hm with hm | hm
  · exact h.page_notMem.1 (heq ▸ List.mem_map_of_mem hm)
  · exact h.page_notMem.2 (heq ▸ List.mem_map_of_mem hm)

theorem Inv.page_lt (h : ih.Inv (A ++ l :: B) lvls) {y : ℤ} (hy : y ∈ A.map (·.page) ++ l.page :: B.map (·.page)) :
    2 ≤ y ∧ y < ih.fd2pageno := by
  refine h.pages.range y (List.mem_append_left _ ?_)
  rwa [List.map_append, List.map_cons]

/-- The split of a full leaf. -/
theorem Inv.splitting (h : ih.Inv (A ++ l :: B) lvls) (hx : ih.pages l.page = some x) (hsorted : SortedKeys es)
    (hsize : es.length = ih.maxSize) :
    ∃ ih₂, (ih.setPage l.page { x with pairs := es }).split l.page = some (ih₂, ih.fd2pageno) ∧
      Splitting ih ih₂ A l B lvls x es := by
  obtain ⟨y, hy, hleaf, -⟩ := (h.leaves l (by simp)).node
  obtain rfl : y = x := Option.some.inj (hy.symm.trans hx)
  have hself : (ih.setPage l.page { y with pairs := es }).pages l.page = some { y with pairs := es } :=
    Function.update_self _ _ _
  have hlt := (h.page_lt (y := l.page) (by simp)).2
  obtain ⟨ih₂, hsplit, hh⟩ := split_leaf (X := { y with pairs := es }) hself hleaf hsize.le hlt fun hne => by
    have hmem := h.nextLeaf_mem hx hne
    have hney : y.nextLeaf ≠ l.page := fun heq => h.page_notMem.2 (heq ▸ hmem)
    obtain ⟨b, hb, hbn⟩ := List.mem_map.mp hmem
    obtain ⟨z, hz, -⟩ := (h.leaves b (by simp [hb])).node
    refine ⟨(h.page_lt (by simp [hmem])).2, hney, ?_⟩
    change ((ih.setPage l.page { y with pairs := es }).pages y.nextLeaf).isSome
    rw [show (ih.setPage l.page { y with pairs := es }).pages y.nextLeaf = ih.pages y.nextLeaf from
      Function.update_of_ne hney _ _, ← hbn, hz]
    rfl
  exact ⟨ih₂, hsplit, h, hx, hleaf, hsorted, hsize, hh⟩

theorem Splitting.order_eq (h : Splitting ih ih₂ A l B lvls x es) : ih₂.btreeOrder = ih.btreeOrder := h.halved.order

/-- What is left of the old leaves: their links alone may have changed. -/
theorem Splitting.old (h : Splitting ih ih₂ A l B lvls x es) (hm : m ∈ A ∨ m ∈ B) (hn : ih.pages m.page = some n) :
    ∃ n', ih₂.pages m.page = some n' ∧ n'.isLeaf = n.isLeaf ∧ n'.pairs = n.pairs ∧ n'.parent = n.parent := by
  have hml := h.inv.page_ne hm
  have hset : ∀ y, (ih.setPage l.page y).pages m.page = some n := fun y => (Function.update_of_ne hml _ _).trans hn
  have hmN : m.page ≠ ih.fd2pageno := by
    refine (h.inv.page_lt ?_).2.ne
    rcases hm with hm | hm
    · exact List.mem_append_left _ (List.mem_map_of_mem hm)
    · exact List.mem_append_right _ (List.mem_cons_of_mem _ (List.mem_map_of_mem hm))
  by_cases hnx : x.nextLeaf ≠ IX_LEAF_HEADER_PAGE ∧ m.page = x.nextLeaf
  · refine ⟨{ n with prevLeaf := ih.fd2pageno }, ?_, rfl, rfl, rfl⟩
    have hnext := h.halved.next hnx.1
    simp only at hnext
    rw [hnx.2, hnext, ← hnx.2, hset]
    rfl
  · refine ⟨n, ?_, rfl, rfl, rfl⟩
    rw [h.halved.other m.page hmN hml fun h1 h2 => hnx ⟨h1, h2⟩, hset]

/-- The inner levels do not see the split yet. -/
theorem Splitting.up (h : Splitting ih ih₂ A l B lvls x es) :
    ih₂.Up (A.map Leaf.link ++ (l.sep, l.page) :: B.map Leaf.link) lvls := by
  have hself : (ih.setPage l.page { x with pairs := es }).pages l.page = some { x with pairs := es } :=
    Function.update_self _ _ _
  refine (h.inv.up_setPage h.page es).congr h.halved.root h.halved.order ?_ ?_
  · intro e he n hen
    rw [List.mem_append, List.mem_cons] at he
    have hkeep : ∀ m, m ∈ A ∨ m ∈ B → m.link = e → ∃ n', ih₂.pages e.2 = some n' ∧ n'.parent = n.parent := by
      rintro m hm rfl
      have hmn : ih.pages m.page = some n := (Function.update_of_ne (h.inv.page_ne hm) _ _).symm.trans hen
      obtain ⟨n', hn', -, -, hpar⟩ := h.old hm hmn
      exact ⟨n', hn', hpar⟩
    rcases he with he | rfl | he
    · obtain ⟨m, hm, hme⟩ := List.mem_map.mp he
      exact hkeep m (Or.inl hm) hme
    · refine ⟨_, h.halved.old, ?_⟩
      rw [← Option.some.inj (hself.symm.trans hen)]
    · obtain ⟨m, hm, hme⟩ := List.mem_map.mp he
      exact hkeep m (Or.inr hm) hme
  · intro z hz
    have hzleaf : z ∉ (A ++ l :: B).map (·.page) := fun hzl =>
      (List.nodup_append.mp h.inv.pages.nodup).2.2 z hzl z hz rfl
    simp only [List.map_append, List.map_cons, List.mem_append, List.mem_cons, not_or] at hzleaf
    have hnext := h.inv.nextLeaf_mem h.page
    refine h.halved.other z ?_ hzleaf.2.1 fun h1 h2 => hzleaf.2.2 (h2 ▸ hnext h1)
    exact (h.inv.pages.range z (List.mem_append_right _ hz)).2.ne

theorem Splitting.pages (h : Splitting ih ih₂ A l B lvls x es) :
    ih₂.PagesOk ((A.map Leaf.link ++ (l.sep, l.page) :: (newKey, ih.fd2pageno) :: B.map Leaf.link).map (·.2) ++
      upPages lvls) := by
  have hpg := h.inv.link_pages
  rw [List.map_append, List.map_cons] at hpg
  exact PagesOk.add_new hpg h.halved.allocated

/-- The two halves and the other leaves, once the new leaf is linked into the levels above. -/
theorem Splitting.leaves (h : Splitting ih ih₂ A l B lvls x es)
    (hg : Grown ih₂ ih' (A.map Leaf.link ++ (l.sep, l.page) :: (newKey, ih.fd2pageno) :: B.map Leaf.link) lvls lvls')
    {k' : K} : ∀ m ∈ A ++ ([⟨k', l.page, es.take (es.length / 2)⟩, ⟨newKey, ih.fd2pageno, es.drop (es.length / 2)⟩] ++ B),
      ih'.LeafOk m := by
  intro m hm
  have hord : ih'.btreeOrder = ih.btreeOrder := hg.order.trans h.order_eq
  have hmax : ih'.maxSize = ih.btreeOrder + 1 := by
    unfold maxSize
    rw [hord]
  have hsize : es.length = ih.btreeOrder + 1 := h.size
  have hbig := h.inv.order
  have hkeep : m ∈ A ∨ m ∈ B → ih'.LeafOk m := by
    intro hm
    refine (h.inv.leaves m (by rcases hm with h | h <;> simp [h])).congr hord fun n hmn => ?_
    obtain ⟨n', hn', h1, h2, -⟩ := h.old hm hmn
    obtain ⟨r, hr⟩ := hg.below m.link (by
      rcases hm with h | h <;> simp [List.mem_map_of_mem (f := Leaf.link) h]) n' hn'
    exact ⟨_, hr, h1, h2⟩
  simp only [List.mem_append, List.mem_pair] at hm
  rcases hm with hm | (rfl | rfl) | hm
  · exact hkeep (Or.inl hm)
  · obtain ⟨r, hr⟩ := hg.below (l.sep, l.page) (by simp) _ h.halved.old
    refine ⟨⟨_, hr, h.leaf, rfl⟩, h.sorted.sublist (List.take_sublist _ _), ?_, ?_⟩
    · rw [hmax, List.length_take]
      omega
    · intro hlen
      rw [hord, List.length_take] at hlen
      omega
  · obtain ⟨r, hr⟩ := hg.below (newKey, ih.fd2pageno) (by simp) _ h.halved.new
    refine ⟨⟨_, hr, rfl, rfl⟩, h.sorted.sublist (List.drop_sublist _ _), ?_, ?_⟩
    · rw [hmax, List.length_drop]
      omega
    · intro hlen
      rw [hord, List.length_drop] at hlen
      omega
  · exact hkeep (Or.inr hm)

/-- The chain of the leaves has the new one in it. -/
theorem Splitting.chain (h : Splitting ih ih₂ A l B lvls x es)
    (hg : Grown ih₂ ih' (A.map Leaf.link ++ (l.sep, l.page) :: (newKey, ih.fd2pageno) :: B.map Leaf.link) lvls lvls') :
    ih'.Chain IX_LEAF_HEADER_PAGE (A.map (·.page) ++ l.page :: ih.fd2pageno :: B.map (·.page)) := by
  have hchain := h.inv.chain
  have hnd := (List.nodup_append.mp h.inv.pages.nodup).1
  rw [List.map_append, List.map_cons] at hchain hnd
  have hself : (ih.setPage l.page { x with pairs := es }).pages l.page = some { x with pairs := es } :=
    Function.update_self _ _ _
  have hchain₁ : (ih.setPage l.page { x with pairs := es }).Chain IX_LEAF_HEADER_PAGE
      (A.map (·.page) ++ l.page :: B.map (·.page)) := by
    refine hchain.congr ?_
    intro z _ n hzn
    by_cases hz : z = l.page
    · subst hz
      refine ⟨_, hself, ?_⟩
      rw [Option.some.inj (hzn.symm.trans h.page)]
      exact ⟨rfl, rfl⟩
    · exact ⟨n, (Function.update_of_ne hz _ _).trans hzn, rfl, rfl⟩
  have hNnot : ih.fd2pageno ∉ A.map (·.page) ++ l.page :: B.map (·.page) := by
    intro hmem
    exact (h.inv.page_lt hmem).2.ne rfl
  refine (Chain.split hself (Chain.nextLeaf_eq h.page hchain) ?_ h.halved.new h.halved.old h.halved.next
    h.halved.other hchain₁ hnd hNnot).congr_content ?_
  · intro z hz
    have := (h.inv.page_lt (y := z) (by simp [hz])).1
    unfold IX_LEAF_HEADER_PAGE
    omega
  · intro z hz
    have hmem : z ∈ (A.map Leaf.link ++ (l.sep, l.page) :: (newKey, ih.fd2pageno) :: B.map Leaf.link).map (·.2) := by
      simpa [Leaf.link] using hz
    obtain ⟨e, he, rfl⟩ := List.mem_map.mp hmem
    exact hg.below e he

theorem Splitting.last (h : Splitting ih ih₂ A l B lvls x es) :
    (A.map (·.page) ++ l.page :: ih.fd2pageno :: B.map (·.page)).getLast? = some ih₂.lastLeaf := by
  have hlast := h.inv.last
  have hlastLeaf : ih₂.lastLeaf = if ih.lastLeaf = l.page then ih.fd2pageno else ih.lastLeaf := h.halved.lastLeaf
  rw [List.map_append, List.map_cons] at hlast
  rw [hlastLeaf]
  rcases List.eq_nil_or_concat B with rfl | ⟨B', b, rfl⟩
  · have hl : l.page = ih.lastLeaf := by simpa using hlast
    rw [if_pos hl.symm]
    simp
  · have hl : b.page = ih.lastLeaf := by simpa [List.getLast?_cons] using hlast
    rw [if_neg]
    · simpa [List.getLast?_cons] using hl
    · intro heq
      exact h.inv.page_notMem.2 (by rw [← heq, ← hl]; simp)

/-- The invariant holds again once the new leaf is linked into the levels above. -/
theorem Splitting.inv_grown (h : Splitting ih ih₂ A l B lvls x es) {k' : K}
    (hup : ih'.Up (A.map Leaf.link ++ (k', l.page) :: (newKey, ih.fd2pageno) :: B.map Leaf.link) lvls')
    (hg : Grown ih₂ ih' (A.map Leaf.link ++ (l.sep, l.page) :: (newKey, ih.fd2pageno) :: B.map Leaf.link) lvls lvls')
    (hkeys : RangesOk (A ++ ([⟨k', l.page, es.take (es.length / 2)⟩, ⟨newKey, ih.fd2pageno, es.drop (es.length / 2)⟩] ++ B))) :
    ih'.Inv (A ++ ([⟨k', l.page, es.take (es.length / 2)⟩, ⟨newKey, ih.fd2pageno, es.drop (es.length / 2)⟩] ++ B)) lvls' := by
  have hmap : (A ++ ([⟨k', l.page, es.take (es.length / 2)⟩, ⟨newKey, ih.fd2pageno, es.drop (es.length / 2)⟩] ++ B) :
      List (Leaf K)).map (·.page) = A.map (·.page) ++ l.page :: ih.fd2pageno :: B.map (·.page) := by simp
  refine ⟨?_, ?_, ?_, h.leaves hg, hkeys, ?_, ?_, ?_⟩
  · rw [hg.order, h.order_eq]
    exact h.inv.order
  · rw [List.map_append, List.map_append]
    exact hup
  · have hnew := @Splitting.pages K _ ih ih₂ A B l lvls x es newKey h
    have hpg := hg.pagesOk (by simp) hnew
    rw [hmap]
    simpa [Leaf.link, Function.comp_def] using hpg
  · rw [hmap]
    exact h.chain hg
  · have hfirst := h.inv.first
    have hfl : ih₂.firstLeaf = ih.firstLeaf := h.halved.firstLeaf
    rw [hmap, hg.firstLeaf, hfl]
    cases A <;> exact hfirst
  · rw [hmap, hg.lastLeaf]
    exact h.last

end Splitting

/-- Splitting a full leaf and linking the new one keeps the invariant. -/
theorem Inv.splitLeaf {ih : IxIndexHandle K} {A B : List (Leaf K)} {l : Leaf K} {lvls : List (List (Inner K))}
    {x : Node K} {es : List (K × Rid)} (h : ih.Inv (A ++ l :: B) lvls) (hx : ih.pages l.page = some x)
    (hsorted : SortedKeys es) (hsize : es.length = ih.maxSize) (hlo : A ≠ [] → ∀ e ∈ es, l.sep ≤ e.1)
    (hhi : ∀ e ∈ es, ∀ b ∈ B, e.1 < b.sep) (hsep : ∀ e ∈ es.drop (es.length / 2), l.sep < e.1) :
    ∃ ih₂ newLeaf newNode newKey ih' lv' lvls',
      (ih.setPage l.page { x with pairs := es }).split l.page = some (ih₂, newLeaf) ∧
      ih₂.fetchNode newLeaf = some newNode ∧ newNode.keyAt 0 = some newKey ∧
      insertIntoParent ih₂.fd2pageno.toNat ih₂ l.page newKey newLeaf = some ih' ∧ ih'.Inv lv' lvls' ∧
      contents lv' = contents A ++ es ++ contents B := by
  obtain ⟨ih₂, hsplit, hs⟩ := h.splitting hx hsorted hsize
  have hord := h.order
  have hmax : ih.maxSize = ih.btreeOrder + 1 := rfl
  obtain ⟨⟨newKey, r₀⟩, t, hdrop⟩ : ∃ e t, es.drop (es.length / 2) = e :: t :=
    List.exists_cons_of_length_pos (by rw [List.length_drop]; omega)
  obtain ⟨⟨f, r₁⟩, t', htake⟩ : ∃ e t, es.take (es.length / 2) = e :: t :=
    List.exists_cons_of_length_pos (by rw [List.length_take]; omega)
  have hN : ih₂.pages ih.fd2pageno = _ := hs.halved.new
  have hp : ih₂.pages l.page = _ := hs.halved.old
  have hfd : ih₂.fd2pageno = ih.fd2pageno + 1 := hs.halved.allocated
  have hheight := height_lt h.up h.link_pages
  have hord₂ : 2 < ih₂.btreeOrder := by
    rw [hs.order_eq]
    exact hord
  simp only at hN hp
  obtain ⟨ih', lvls', k', hrun, hup', hk', hg⟩ := insertIntoParent_up (b := ih₂.fd2pageno.toNat) hord₂ hs.up hs.pages hp
    (f := f) (by rw [htake]; rfl) hN (by rw [hdrop]; rfl) (by omega)
  have hkeys : RangesOk (A ++ ([⟨k', l.page, es.take (es.length / 2)⟩,
      ⟨newKey, ih.fd2pageno, es.drop (es.length / 2)⟩] ++ B)) := by
    have hes : es.take (es.length / 2) ++ es.drop (es.length / 2) = es := List.take_append_drop _ es
    have hnew := hsep (newKey, r₀) (by rw [hdrop]; simp)
    rw [htake, hdrop] at hes ⊢
    rw [← hes] at hsorted hlo hhi
    exact h.keys.halves hsorted hlo hhi hnew (by simpa using hk')
  refine ⟨ih₂, ih.fd2pageno, _, newKey, ih', _, lvls', hsplit, hN, by rw [hdrop]; rfl, hrun, hs.inv_grown hup' hg hkeys, ?_⟩
  unfold contents
  rw [List.flatMap_append, List.flatMap_append, List.append_assoc]
  have hpair : [(⟨k', l.page, es.take (es.length / 2)⟩ : Leaf K),
    ⟨newKey, ih.fd2pageno, es.drop (es.length / 2)⟩].flatMap (·.entries) = es := by simp
  rw [hpair]

/-! ### Inserting -/

/-- `insert_entry` of a key that is there changes nothing. -/
theorem Inv.insertEntry_present {ih : IxIndexHandle K} {lv : List (Leaf K)} {lvls : List (List (Inner K))}
    (h : ih.Inv lv lvls) {key : K} {r₀ : Rid} (hk : lookupKey (contents lv) key = some r₀) (r : Rid) :
    ∃ leaf, ih.insertEntry key r = some (ih, leaf) := by
  obtain ⟨A, l, B, hin, hfind⟩ := findLeafPage_eq h key
  have hl := h.leaves l (by rw [hin.split]; simp)
  obtain ⟨x, hx, -, hpairs⟩ := hl.node
  rw [hin.lookup h.keys, ← hpairs] at hk
  have hins := Node.insert_present (hpairs ▸ hl.sorted) hk ih.maxSize r
  refine ⟨l.page, ?_⟩
  unfold insertEntry
  simp only [hfind, Option.bind_eq_bind, Option.bind_some, fetchNode, hx, hins, if_true]

/-- In a leaf that an insertion fills up, the upper half is above the separator: an old entry is in the lower half. -/
theorem sep_lt_upper {l : Leaf K} {E₁ E₂ : List (K × Rid)} {e₀ : K × Rid} (hl : l.entries = E₁ ++ E₂)
    (hsorted : SortedKeys (E₁ ++ e₀ :: E₂)) (hfresh : ∀ e ∈ l.entries, l.sep ≤ e.1) {n : ℕ} (hn : 2 ≤ n)
    (hlen : n ≤ (E₁ ++ e₀ :: E₂).length) : ∀ e ∈ (E₁ ++ e₀ :: E₂).drop n, l.sep < e.1 := by
  obtain ⟨o, ho, hol⟩ : ∃ o ∈ (E₁ ++ e₀ :: E₂).take n, o ∈ l.entries := by
    obtain ⟨m, rfl⟩ := Nat.exists_eq_add_of_le hn
    rw [hl, show 2 + m = m + 1 + 1 by omega]
    match E₁, E₂ with
    | e :: E₁, E₂ => exact ⟨e, by simp, by simp⟩
    | [], e :: E₂ => exact ⟨e, by simp, by simp⟩
    | [], [] =>
      simp only [List.nil_append, List.length_cons, List.length_nil] at hlen
      omega
  rw [← List.take_append_drop n (E₁ ++ e₀ :: E₂)] at hsorted
  intro e he
  exact (hfresh o hol).trans_lt ((SortedKeys.append_iff.mp hsorted).2.2 o ho e he)

/-- **`insert_entry` of a new key** keeps the invariant and adds the entry. -/
theorem Inv.insertEntry_absent {ih : IxIndexHandle K} {lv : List (Leaf K)} {lvls : List (List (Inner K))}
    (h : ih.Inv lv lvls) {key : K} (hk : lookupKey (contents lv) key = none) (r : Rid) :
    ∃ ih' leaf lv' lvls' C D, ih.insertEntry key r = some (ih', leaf) ∧ ih'.Inv lv' lvls' ∧
      contents lv = C ++ D ∧ contents lv' = C ++ (key, r) :: D := by
  obtain ⟨A, l, B, hin, hfind⟩ := findLeafPage_eq h key
  have hlook := hin.lookup h.keys
  obtain ⟨rfl, hlo, hhi⟩ := hin
  have hl := h.leaves l (by simp)
  obtain ⟨x, hx, -, hpairs⟩ := hl.node
  rw [hlook, ← hpairs] at hk
  have hsize := hl.size
  rw [← hpairs] at hsize
  obtain ⟨E₁, E₂, hE, hE₁, hE₂, hins⟩ := Node.insert_absent (hpairs ▸ hl.sorted) hk hsize r
  have hle : l.entries = E₁ ++ E₂ := hpairs.symm.trans hE
  have hsorted : SortedKeys (E₁ ++ (key, r) :: E₂) := SortedKeys.insert r (hle ▸ hl.sorted) hE₁ hE₂
  obtain ⟨hlow, hup⟩ := h.keys.bounds
  have hmem : ∀ e ∈ E₁ ++ (key, r) :: E₂, e = (key, r) ∨ e ∈ l.entries := by
    intro e he
    rw [hle]
    simp only [List.mem_append, List.mem_cons] at he ⊢
    tauto
  have hlo' : A ≠ [] → ∀ e ∈ E₁ ++ (key, r) :: E₂, l.sep ≤ e.1 := by
    intro hA e he
    rcases hmem e he with rfl | he
    · exact hlo hA
    · exact hlow hA e he
  have hhi' : ∀ e ∈ E₁ ++ (key, r) :: E₂, ∀ b ∈ B, e.1 < b.sep := by
    intro e he b hb
    rcases hmem e he with rfl | he
    · exact hhi b hb
    · exact hup e he b hb
  have hcontents : contents (A ++ l :: B) = (contents A ++ E₁) ++ (E₂ ++ contents B) := by
    simp [contents, hle]
  have hne : (E₁ ++ (key, r) :: E₂).length ≠ x.pairs.length := by
    rw [hE]
    simp
  have hlen : (E₁ ++ (key, r) :: E₂).length = x.pairs.length + 1 := by
    rw [hE]
    simp only [List.length_append, List.length_cons]
    omega
  by_cases hfull : ih.maxSize ≤ (E₁ ++ (key, r) :: E₂).length
  · have hmax : ih.maxSize = ih.btreeOrder + 1 := rfl
    have hord := h.order
    have hfull' : (E₁ ++ (key, r) :: E₂).length = ih.maxSize := by omega
    have hfresh := hl.fresh (by rw [← hpairs]; omega)
    obtain ⟨ih₂, newLeaf, newNode, newKey, ih', lv', lvls', hsplit, hnode, hkey, hrun, hinv, hcon⟩ :=
      h.splitLeaf hx hsorted hfull' hlo' hhi' (sep_lt_upper hle hsorted hfresh (by omega) (by omega))
    refine ⟨ih', l.page, lv', lvls', contents A ++ E₁, E₂ ++ contents B, ?_, hinv, hcontents, by rw [hcon]; simp⟩
    unfold insertEntry
    simp only [hfind, Option.bind_eq_bind, Option.bind_some, fetchNode, hx, hins, Node.size, setPage_maxSize, hne, hfull,
      if_false, if_true, hsplit]
    rw [show ih₂.pages newLeaf = some newNode from hnode, Option.bind_some, hkey, Option.bind_some, hrun]
    rfl
  · obtain ⟨⟨f, r₁⟩, t, ht⟩ : ∃ e t, E₁ ++ (key, r) :: E₂ = e :: t := List.exists_cons_of_ne_nil (by simp)
    rw [ht] at hsorted hfull hlo' hhi' hne hins
    obtain ⟨ih', lvls', hrun, hinv⟩ := h.refreshLeaf hx hsorted (not_le.mp hfull)
      (fun hA => hlo' hA (f, r₁) List.mem_cons_self) hhi'
    refine ⟨ih', l.page, _, lvls', contents A ++ E₁, E₂ ++ contents B, ?_, hinv, hcontents, ?_⟩
    · unfold insertEntry
      simp only [hfind, Option.bind_eq_bind, Option.bind_some, fetchNode, hx, hins, Node.size, setPage_maxSize, hne,
        hfull, if_false, setPage_fd2pageno, hrun]
    · simp [contents, ← ht]

/-! ### Deleting -/

/-- `delete_entry` of a key that is not there changes nothing. -/
theorem Inv.deleteEntry_absent {ih : IxIndexHandle K} {lv : List (Leaf K)} {lvls : List (List (Inner K))}
    (h : ih.Inv lv lvls) {key : K} (hk : lookupKey (contents lv) key = none) :
    ih.deleteEntry key = some (ih, false) := by
  obtain ⟨A, l, B, hin, hfind⟩ := findLeafPage_eq h key
  have hl := h.leaves l (by rw [hin.split]; simp)
  obtain ⟨x, hx, -, hpairs⟩ := hl.node
  rw [hin.lookup h.keys, ← hpairs] at hk
  have hrem := Node.remove_absent (hpairs ▸ hl.sorted) hk
  unfold deleteEntry
  simp only [hfind, Option.bind_eq_bind, Option.bind_some, fetchNode, hx, hrem, if_true]

/-- **`delete_entry` of a present key** keeps the invariant and takes the entry out. -/
theorem Inv.deleteEntry_present {ih : IxIndexHandle K} {lv : List (Leaf K)} {lvls : List (List (Inner K))}
    (h : ih.Inv lv lvls) {key : K} {r : Rid} (hk : lookupKey (contents lv) key = some r) :
    ∃ ih' lv' lvls' C D, ih.deleteEntry key = some (ih', true) ∧ ih'.Inv lv' lvls' ∧
      contents lv = C ++ (key, r) :: D ∧ contents lv' = C ++ D ∧ lookupKey (contents lv') key = none := by
  obtain ⟨A, l, B, hin, hfind⟩ := findLeafPage_eq h key
  have hlook := hin.lookup h.keys
  have houtside := hin.outside h.keys
  obtain ⟨rfl, hlo, hhi⟩ := hin
  have hl := h.leaves l (by simp)
  obtain ⟨x, hx, -, hpairs⟩ := hl.node
  rw [hlook, ← hpairs] at hk
  have hsize := hl.size
  obtain ⟨E₁, E₂, hE, hE₁, hE₂, hpos, hrem⟩ := Node.remove_present (hpairs ▸ hl.sorted) hk
  have hle : l.entries = E₁ ++ (key, r) :: E₂ := hpairs.symm.trans hE
  have hsorted : SortedKeys (E₁ ++ E₂) :=
    (hle ▸ hl.sorted).sublist (List.Sublist.append_left (List.sublist_cons_self _ _) _)
  obtain ⟨hlow, hup⟩ := h.keys.bounds
  have hmem : ∀ e ∈ E₁ ++ E₂, e ∈ l.entries := by
    intro e he
    rw [hle]
    simp only [List.mem_append, List.mem_cons] at he ⊢
    tauto
  have hlen : (E₁ ++ E₂).length + 1 = l.entries.length := by
    rw [hle]
    simp only [List.length_append, List.length_cons]
    omega
  have hne : (E₁ ++ E₂).length ≠ x.pairs.length := by
    rw [hpairs]
    omega
  have hnone : lookupKey ((contents A ++ E₁) ++ (E₂ ++ contents B)) key = none := by
    refine lookupKey_of_ne ?_
    intro e he
    simp only [List.mem_append] at he
    rcases he with (he | he) | (he | he)
    · exact houtside.1 e he
    · exact (hE₁ e he).ne
    · exact (hE₂ e he).ne'
    · exact houtside.2 e he
  have hcontents : contents (A ++ l :: B) = (contents A ++ E₁) ++ (key, r) :: (E₂ ++ contents B) := by
    simp [contents, hle]
  have hcontents' : ∀ s, contents (A ++ ⟨s, l.page, E₁ ++ E₂⟩ :: B) = (contents A ++ E₁) ++ (E₂ ++ contents B) := by
    simp [contents]
  by_cases hcase : 0 < (E₁ ++ E₂).length ∧ E₁.length = 0
  · -- the first entry of a leaf that keeps others: its separator is refreshed
    obtain rfl := List.length_eq_zero_iff.mp hcase.2
    obtain ⟨⟨f, r₁⟩, t, rfl⟩ := List.exists_cons_of_length_pos hcase.1
    simp only [List.nil_append, List.length_nil] at hrem hne hpos hmem hsorted hlen hcontents'
    obtain ⟨ih', lvls', hrun, hinv⟩ := h.refreshLeaf hx hsorted (by omega)
      (fun hA => hlow hA (f, r₁) (hmem (f, r₁) List.mem_cons_self)) fun e he b hb => hup e (hmem e he) b hb
    refine ⟨ih', _, lvls', _, _, ?_, hinv, hcontents, hcontents' f, by rw [hcontents' f]; exact hnone⟩
    have hsz : 0 < ((f, r₁) :: t).length := Nat.succ_pos _
    unfold deleteEntry
    simp only [hfind, Option.bind_eq_bind, Option.bind_some, fetchNode, hx, hrem, Node.size, hpos, hne, if_false, hsz,
      if_true, setPage_fd2pageno, and_self, hrun]
  · refine ⟨ih.setPage l.page { x with pairs := E₁ ++ E₂ }, A ++ ⟨l.sep, l.page, E₁ ++ E₂⟩ :: B, lvls, _, _, ?_, ?_,
      hcontents, hcontents' l.sep, by rw [hcontents' l.sep]; exact hnone⟩
    · unfold deleteEntry
      simp only [hfind, Option.bind_eq_bind, Option.bind_some, fetchNode, hx, hrem, Node.size, hpos, hne, if_false, hcase]
    · have hmax : ih.maxSize = ih.btreeOrder + 1 := rfl
      refine h.rewriteLeaf (m := ⟨l.sep, l.page, E₁ ++ E₂⟩) (g := Function.update ih.pages l.page _) hx rfl
        hsorted (show (E₁ ++ E₂).length < ih.maxSize by omega) ?_ ?_ (h.up_setPage hx (E₁ ++ E₂)) rfl fun y hy => rfl
      · intro heq
        -- a leaf loses an entry here, so it is not about to split
        replace heq : (E₁ ++ E₂).length = ih.btreeOrder := heq
        omega
      · refine h.keys.replace (M := [⟨l.sep, l.page, E₁ ++ E₂⟩]) (List.pairwise_singleton _ _) ?_ ?_ ?_
        · intro _ m hm
          obtain rfl := List.mem_singleton.mp hm
          exact le_refl _
        · intro m hm b hb
          obtain rfl := List.mem_singleton.mp hm
          have hlb := (List.pairwise_cons.mp (List.pairwise_append.mp h.keys.ranges).2.1).1 b hb
          exact ⟨hlb.1, fun e he => hup e (hmem e he) b hb⟩
        · intro m hm hcase
          obtain rfl := List.mem_singleton.mp hm
          rcases hcase with hA | hcase
          · exact fun e he => hlow hA e (hmem e he)
          · cases hcase

/-! ### A fresh index -/

/-- A fresh index is one empty leaf. -/
theorem createIndex_inv {order : ℕ} (h : 2 < order) (k : K) :
    (createIndex order : IxIndexHandle K).Inv [⟨k, IX_INIT_ROOT_PAGE, []⟩] [] := by
  have hroot : (createIndex order : IxIndexHandle K).pages IX_INIT_ROOT_PAGE =
      some ⟨true, IX_NO_PAGE, IX_LEAF_HEADER_PAGE, IX_LEAF_HEADER_PAGE, []⟩ := rfl
  refine ⟨h, ⟨k, rfl, _, hroot, rfl⟩, ⟨by simp [upPages], ?_⟩, ?_, ⟨List.pairwise_singleton _ _, by simp⟩,
    ⟨⟨_, hroot, rfl, rfl⟩, trivial⟩, rfl, rfl⟩
  · intro x hx
    obtain rfl : x = IX_INIT_ROOT_PAGE := by simpa [upPages] using hx
    exact ⟨le_refl _, show IX_INIT_ROOT_PAGE < IX_INIT_NUM_PAGES by decide⟩
  · intro l hl
    obtain rfl := List.mem_singleton.mp hl
    exact ⟨⟨_, hroot, rfl, rfl⟩, List.Pairwise.nil, by simp [maxSize], by simp⟩

end Ordered

end IxIndexHandle

/-! ### Runs -/

/-- A call of `insert_entry` or `delete_entry`. -/
inductive Op (K : Type) where
  /-- `insert_entry(key, value)`. -/
  | insert (key : K) (value : Rid)
  /-- `delete_entry(key)`. -/
  | delete (key : K)
deriving DecidableEq

/-- After these calls the key is absent: every insertion of it has been followed by a deletion. -/
def Absent (ops : List (Op K)) (k : K) : Prop := ∀ P r S, ops = P ++ Op.insert k r :: S → Op.delete k ∈ S

/-- The rid is that of the first insertion of the key since it was last absent, and the key has not been deleted
since. -/
def HeldFrom (ops : List (Op K)) (k : K) (r : Rid) : Prop :=
  ∃ P S, ops = P ++ Op.insert k r :: S ∧ Absent P k ∧ Op.delete k ∉ S

theorem absent_snoc {l : List (Op K)} {op : Op K} {k : K} :
    Absent (l ++ [op]) k ↔ op = .delete k ∨ Absent l k ∧ ∀ r, op ≠ .insert k r := by
  constructor
  · intro h
    by_cases hop : op = .delete k
    · exact Or.inl hop
    · refine Or.inr ⟨?_, ?_⟩
      · intro P r S hops
        have := h P r (S ++ [op]) (snoc_eq_append_cons.mpr (Or.inr ⟨S, rfl, hops⟩))
        simpa [Ne.symm hop] using this
      · intro r hr
        have := h l r [] (by rw [hr])
        cases this
  · rintro h P r S hops
    rcases snoc_eq_append_cons.mp hops with ⟨rfl, rfl, rfl⟩ | ⟨S', rfl, hops'⟩
    · rcases h with h | ⟨-, h⟩
      · cases h
      · exact absurd rfl (h r)
    · rcases h with rfl | ⟨h, -⟩
      · simp
      · exact List.mem_append_left _ (h P r S' hops')

theorem heldFrom_snoc {ops : List (Op K)} {op : Op K} {k : K} {r : Rid} :
    HeldFrom (ops ++ [op]) k r ↔ op = .insert k r ∧ Absent ops k ∨ op ≠ .delete k ∧ HeldFrom ops k r := by
  constructor
  · rintro ⟨P, S, hops, habs, hdel⟩
    rcases snoc_eq_append_cons.mp hops with ⟨rfl, rfl, rfl⟩ | ⟨S', rfl, hops'⟩
    · exact Or.inl ⟨rfl, habs⟩
    · simp only [List.mem_append, List.mem_singleton, not_or] at hdel
      exact Or.inr ⟨Ne.symm hdel.2, P, S', hops', habs, hdel.1⟩
  · rintro (⟨rfl, habs⟩ | ⟨hop, P, S, hops, habs, hdel⟩)
    · exact ⟨ops, [], rfl, habs, by simp⟩
    · refine ⟨P, S ++ [op], snoc_eq_append_cons.mpr (Or.inr ⟨S, rfl, hops⟩), habs, ?_⟩
      simp [hdel, Ne.symm hop]

section Runs

variable [LinearOrder K]

/-- One call on the index. -/
def Op.apply (ih : IxIndexHandle K) : Op K → Option (IxIndexHandle K)
  | .insert key value => (ih.insertEntry key value).map (·.1)
  | .delete key => (ih.deleteEntry key).map (·.1)

/-- A sequence of calls. -/
def runOps (ih : IxIndexHandle K) (ops : List (Op K)) : Option (IxIndexHandle K) := ops.foldlM Op.apply ih

/-- One call on a finite map: an insertion keeps the value of a present key. -/
def Op.applyMap (m : K → Option Rid) : Op K → K → Option Rid
  | .insert key value => fun k => if k = key ∧ m key = none then some value else m k
  | .delete key => fun k => if k = key then none else m k

/-- What one call does to the index and to the map. -/
theorem apply_inv {ih : IxIndexHandle K} {lv : List (Leaf K)} {lvls : List (List (Inner K))} (h : ih.Inv lv lvls)
    (op : Op K) : ∃ ih' lv' lvls', op.apply ih = some ih' ∧ ih'.Inv lv' lvls' ∧
      lookupKey (contents lv') = op.applyMap (lookupKey (contents lv)) := by
  cases op with
  | insert key value =>
    rcases hk : lookupKey (contents lv) key with _ | r₀
    · obtain ⟨ih', leaf, lv', lvls', C, D, hrun, hinv, hC, hC'⟩ := h.insertEntry_absent hk value
      refine ⟨ih', lv', lvls', by simp [Op.apply, hrun], hinv, ?_⟩
      funext k
      have hins := lookupKey_insert (C := C) (D := D) (by rw [← hC]; exact hk) value k
      rw [hC', hins, hC]
      simp [Op.applyMap, ← hC, hk]
    · obtain ⟨leaf, hrun⟩ := h.insertEntry_present hk value
      refine ⟨ih, lv, lvls, by simp [Op.apply, hrun], h, ?_⟩
      funext k
      simp [Op.applyMap, hk]
  | delete key =>
    rcases hk : lookupKey (contents lv) key with _ | r₀
    · refine ⟨ih, lv, lvls, by simp [Op.apply, h.deleteEntry_absent hk], h, ?_⟩
      funext k
      by_cases hkk : k = key <;> simp [Op.applyMap, hkk, hk]
    · obtain ⟨ih', lv', lvls', C, D, hrun, hinv, hC, hC', hnone⟩ := h.deleteEntry_present hk
      refine ⟨ih', lv', lvls', by simp [Op.apply, hrun], hinv, ?_⟩
      funext k
      rw [hC'] at hnone ⊢
      rw [hC]
      by_cases hkk : k = key
      · simp [Op.applyMap, hkk, hnone]
      · simp [Op.applyMap, hkk, lookupKey_insert hnone]

/-- **Every run of the index is a run of a finite map.** -/
theorem run_inv : ∀ (ops : List (Op K)) {ih : IxIndexHandle K} {lv : List (Leaf K)} {lvls : List (List (Inner K))},
    ih.Inv lv lvls → ∃ ih' lv' lvls', runOps ih ops = some ih' ∧ ih'.Inv lv' lvls' ∧
      lookupKey (contents lv') = ops.foldl Op.applyMap (lookupKey (contents lv))
  | [], ih, lv, lvls, h => ⟨ih, lv, lvls, rfl, h, rfl⟩
  | op :: ops, ih, lv, lvls, h => by
    obtain ⟨ih₁, lv₁, lvls₁, hrun₁, h₁, hmap₁⟩ := apply_inv h op
    obtain ⟨ih', lv', lvls', hrun, h', hmap⟩ := run_inv ops h₁
    refine ⟨ih', lv', lvls', ?_, h', ?_⟩
    · unfold runOps at hrun ⊢
      rw [List.foldlM_cons, hrun₁]
      exact hrun
    · rw [hmap, hmap₁, List.foldl_cons]

/-- The map after a run holds at the key what the calls have left there. -/
theorem foldl_applyMap_iff (k : K) (ops : List (Op K)) :
    (ops.foldl Op.applyMap (fun _ => none) k = none ↔ Absent ops k) ∧
      ∀ r, ops.foldl Op.applyMap (fun _ => none) k = some r ↔ HeldFrom ops k r := by
  -- induction on the run from its end
  induction ops using List.reverseRecOn with
  | nil => simp [Absent, HeldFrom]
  | append_singleton ops op ih =>
    obtain ⟨hnone, hsome⟩ := ih
    simp only [List.foldl_append, List.foldl_cons, List.foldl_nil, absent_snoc, heldFrom_snoc, ← hnone, ← hsome]
    cases op with
    | insert key value =>
      by_cases hk : k = key
      · subst hk
        rcases hm : ops.foldl Op.applyMap (fun _ => none) k with _ | r₀ <;> simp [Op.applyMap, hm]
      · simp [Op.applyMap, hk, Ne.symm hk]
    | delete key =>
      by_cases hk : k = key
      · simp [Op.applyMap, hk]
      · simp [Op.applyMap, hk, Ne.symm hk]

end Runs

/-- **The index is a finite map.** -/
theorem index_is_finite_map (kc : KeyCols) (order : ℕ) (horder : 2 < order) (ops : List (Op (Key kc))) :
    ∃ ih, runOps (IxIndexHandle.createIndex order) ops = some ih ∧
      (∀ k, ∃ v, ih.getValue k = some v ∧
        ∀ r, v = some r ↔ HeldFrom ops k r) ∧
      (∀ k r, ih.getValue k ≠ some none → ∃ leaf, ih.insertEntry k r = some (ih, leaf)) ∧
      ∀ k, ∃ ih' b, ih.deleteEntry k = some (ih', b) ∧ (b = true ↔ ih.getValue k ≠ some none) ∧
        ih'.getValue k = some none ∧ ∀ k', k' ≠ k → ih'.getValue k' = ih.getValue k' := by
  let k₀ : Key kc := ⟨List.replicate (colTotLen kc.cols) 0, List.length_replicate⟩
  obtain ⟨ih, lv, lvls, hrun, hinv, hmap⟩ := run_inv ops (IxIndexHandle.createIndex_inv horder k₀)
  have hspec : ∀ k, lookupKey (contents lv) k = ops.foldl Op.applyMap (fun _ => none) k := fun k => congrFun hmap k
  refine ⟨ih, hrun, fun k => ⟨_, hinv.getValue_eq k, ?_⟩, ?_, ?_⟩
  · intro r
    rw [hspec]
    exact (foldl_applyMap_iff k ops).2 r
  · intro k r hk
    rw [hinv.getValue_eq k] at hk
    obtain ⟨r₀, hr₀⟩ := Option.ne_none_iff_exists'.mp fun h => hk (congrArg some h)
    exact hinv.insertEntry_present hr₀ r
  · intro k
    rcases hk : lookupKey (contents lv) k with _ | r₀
    · refine ⟨ih, false, hinv.deleteEntry_absent hk, ?_, ?_, fun _ _ => rfl⟩
      · simp [hinv.getValue_eq k, hk]
      · rw [hinv.getValue_eq k, hk]
    · obtain ⟨ih', lv', lvls', C, D, hrun', hinv', hC, hC', hnone⟩ := hinv.deleteEntry_present hk
      refine ⟨ih', true, hrun', ?_, ?_, ?_⟩
      · simp [hinv.getValue_eq k, hk]
      · rw [hinv'.getValue_eq k, hnone]
      · intro k' hk'
        rw [hC'] at hnone
        rw [hinv'.getValue_eq k', hinv.getValue_eq k', hC, hC', lookupKey_insert hnone, if_neg hk']

/-- One `INT` column. -/
def intColumn : KeyCols := ⟨[(.int, 4)], by decide⟩

/-- The key `7` of one `INT` column. -/
def keySeven : Key intColumn := ⟨[7, 0, 0, 0], rfl⟩

theorem index_is_finite_map_reinserted :
    ∃ ih, runOps (IxIndexHandle.createIndex 3) [Op.insert keySeven ⟨1, 0⟩, .delete keySeven, .insert keySeven ⟨1, 1⟩,
      .insert keySeven ⟨1, 2⟩] = some ih ∧ ih.getValue keySeven = some (some ⟨1, 1⟩) := by
  obtain ⟨ih, hrun, hget, -⟩ := index_is_finite_map intColumn 3 (by decide)
    [Op.insert keySeven ⟨1, 0⟩, .delete keySeven, .insert keySeven ⟨1, 1⟩, .insert keySeven ⟨1, 2⟩]
  obtain ⟨v, hv, hiff⟩ := hget keySeven
  have habs : Absent [Op.insert keySeven ⟨1, 0⟩, .delete keySeven] keySeven :=
    (absent_snoc (l := [Op.insert keySeven ⟨1, 0⟩])).mpr (Or.inl rfl)
  refine ⟨ih, hrun, ?_⟩
  rw [hv, (hiff ⟨1, 1⟩).mpr ⟨[.insert keySeven ⟨1, 0⟩, .delete keySeven], [.insert keySeven ⟨1, 2⟩], rfl, habs,
    by simp⟩]

end Rmdb.Index
