import Rmdb.Index.PagedNode
import Rmdb.Index.Depth
import Rmdb.Lib.Triple
import Rmdb.Storage.Pinned

/-!
# The index in bytes is the tree

The pages of an open index, in the buffer pool or on disk, stand for the nodes of a tree (`Rep`). Where an operation of the tree has a
result, the operation on bytes has the same one, and afterwards the pages stand for the new tree. It needs some free frames, gives
every pin back, and leaves the pages of other files alone.
-/

namespace Rmdb.Index.Paged

open Lib Storage NodePage
open Record (InInt)
open Record.Paged (INT_MAX)

/-- What stays while an index is open. -/
structure Env where
  /-- The layout of its nodes. -/
  T : TreeLayout
  /-- Its file. -/
  fd : ℤ
  /-- The number of frames of the pool. -/
  poolSize : ℕ
  /-- What the other pages hold: those of other files, and the header. -/
  others : PageId → PageData

/-- A pin on a page of the index. -/
def Env.pin (E : Env) (p : ℤ) (frame : ℕ) (modified : Bool) : Pin := ⟨⟨E.fd, p⟩, frame, modified⟩

/-- **The pages stand for the tree.** -/
structure Stands (E : Env) (s : IxIndexHandle) (pins : List Pin) (ih : Index.IxIndexHandle (Key E.T.keyCols))
    (contents : PageId → PageData) : Prop where
  pinned : Pinned s.bpm contents pins
  fd : s.fd = E.fd
  poolSize : s.bpm.poolSize = E.poolSize
  others : ∀ pid : PageId, pid.fd ≠ E.fd ∨ pid.pageNo = IX_FILE_HDR_PAGE → contents pid = E.others pid
  nodes : ∀ {p n}, ih.pages p = some n → 1 ≤ p ∧ p < ih.fd2pageno ∧ Stores E.T (contents ⟨E.fd, p⟩) n
  fresh : ∀ {p}, ih.fd2pageno ≤ p → contents ⟨E.fd, p⟩ = zeros ∧ s.bpm.pageTable ⟨E.fd, p⟩ = none ∧ s.bpm.disk ⟨E.fd, p⟩ = none
  noHeader : s.bpm.pageTable ⟨E.fd, IX_FILE_HDR_PAGE⟩ = none
  counter : s.bpm.fd2pageno E.fd = ih.fd2pageno
  first : 1 ≤ ih.fd2pageno
  int : ih.fd2pageno ≤ INT_MAX
  count : ih.numPages = ih.fd2pageno
  order : ih.btreeOrder = E.T.btreeOrder
  rootPage : s.rootPage = ih.rootPage
  numPages : s.numPages = ih.numPages
  firstLeaf : s.firstLeaf = ih.firstLeaf
  lastLeaf : s.lastLeaf = ih.lastLeaf

/-- The pages stand for the tree, whatever they hold. -/
def Rep (E : Env) (s : IxIndexHandle) (pins : List Pin) (ih : Index.IxIndexHandle (Key E.T.keyCols)) : Prop :=
  ∃ contents, Stands E s pins ih contents

variable {E : Env} {s s' : IxIndexHandle} {pins : List Pin} {ih ih' : Index.IxIndexHandle (Key E.T.keyCols)} {p q : ℤ} {f g : ℕ}
  {m : Bool} {n n' : E.T.TreeNode}

/-! ### One step -/

theorem Rep.perm {pins' : List Pin} (h : Rep E s pins ih) (hperm : pins.Perm pins') : Rep E s pins' ih := by
  obtain ⟨contents, h⟩ := h
  exact ⟨contents, { h with pinned := h.pinned.perm hperm }⟩

theorem Rep.maxSize (h : Rep E s pins ih) : ih.maxSize = E.T.maxSize := by
  obtain ⟨contents, h⟩ := h
  rw [Index.IxIndexHandle.maxSize, h.order]
  rfl

/-- A page number of the tree is an `int`. -/
theorem Rep.inInt (h : Rep E s pins ih) (hn : ih.pages p = some n) : InInt p := by
  obtain ⟨contents, h⟩ := h
  obtain ⟨hpos, hlt, -⟩ := h.nodes hn
  have := h.int
  unfold INT_MAX at this
  constructor <;> omega

/-- The bound on the loops is that of the tree. -/
theorem Rep.bound (h : Rep E s pins ih) : s.bound = ih.fd2pageno.toNat := by
  obtain ⟨contents, h⟩ := h
  rw [IxIndexHandle.bound, h.fd, h.counter]

/-- What is in a frame that the page table names. -/
theorem Rep.at_table (h : Rep E s pins ih) (hn : ih.pages p = some n) (hf : s.bpm.pageTable ⟨E.fd, p⟩ = some f) :
    Stores E.T (s.data ⟨f⟩) n ∧ s.pageNo ⟨f⟩ = p := by
  obtain ⟨contents, h⟩ := h
  obtain ⟨hdata, hid⟩ := h.pinned.at_table hf
  refine ⟨?_, congrArg PageId.pageNo hid⟩
  rw [IxIndexHandle.data, hdata]
  exact (h.nodes hn).2.2

/-- A page that is pinned is in the pool, and stays there. -/
theorem Rep.recent (h : Rep E s pins ih) (hx : E.pin p f m ∈ pins) : Recent s.bpm ⟨E.fd, p⟩ f := by
  obtain ⟨contents, h⟩ := h
  exact (h.pinned.at_pin hx).2.2

/-- What is in a frame that is pinned. -/
theorem Rep.at_pin (h : Rep E s pins ih) (hn : ih.pages p = some n) (hx : E.pin p f m ∈ pins) :
    Stores E.T (s.data ⟨f⟩) n ∧ s.pageNo ⟨f⟩ = p := h.at_table hn (h.recent hx).1

/-- `fetch_node`. -/
theorem Rep.fetchNode (h : Rep E s pins ih) (hroom : pins.length < E.poolSize) (hn : ih.pages p = some n) :
    Returns (fetchNode p) s fun g s' => Rep E s' (E.pin p g.frame false :: pins) ih ∧
      ∀ q f, Recent s.bpm ⟨E.fd, q⟩ f → pins.length + 2 ≤ E.poolSize → s'.bpm.pageTable ⟨E.fd, q⟩ = some f := by
  obtain ⟨contents, h⟩ := h
  have hpos := (h.nodes hn).1
  obtain ⟨bpm', frame, hrun, hpinned, hsize, hcounter, hbrings, hrecent, hdisk⟩ := h.pinned.fetchPage
    (by rw [h.poolSize]; exact hroom) (show 0 ≤ (⟨E.fd, p⟩ : PageId).pageNo by change 0 ≤ p; omega)
  have hfetch : s.bpm.fetchPage ⟨s.fd, p⟩ = (bpm', .page frame) := by rw [h.fd]; exact hrun
  unfold Paged.fetchNode
  refine Returns.get_bind (Returns.set_bind ?_)
  rw [hfetch]
  refine Returns.pure ⟨⟨contents, { h with
    pinned := hpinned, poolSize := hsize.trans h.poolSize
    fresh := fun {x} hx => ⟨(h.fresh hx).1, ?_, (hdisk _ (h.fresh hx).2.1).trans (h.fresh hx).2.2⟩, noHeader := ?_
    counter := (congrFun hcounter _).trans h.counter }⟩, fun q f hq hroom' => hrecent _ _ hq (by rw [h.poolSize]; exact hroom')⟩
  -- no page that is not allocated yet has been fetched
  · refine hbrings _ ?_ (h.fresh hx).2.1
    intro heq
    have hxp : x = p := congrArg PageId.pageNo heq
    have := (h.nodes hn).2.1
    omega
  · refine hbrings _ ?_ h.noHeader
    intro heq
    have hzero : 0 = p := congrArg PageId.pageNo heq
    omega

/-- `unpin_page`. -/
theorem Rep.unpinPage {isDirty : Bool} (h : Rep E s (E.pin p f m :: pins) ih) (hdirty : m = true → isDirty = true) :
    Returns (unpinPage ⟨f⟩ isDirty) s fun b s' => b = true ∧ Rep E s' pins ih ∧ Recent s'.bpm ⟨E.fd, p⟩ f := by
  obtain ⟨contents, h⟩ := h
  obtain ⟨bpm', hrun, hpinned, hsize, hcounter, htable, hdisk, hrecent⟩ :=
    Pinned.unpin (A := []) h.pinned (show (E.pin p f m).modified = true → isDirty = true from hdirty)
  have hid : (s.bpm.pages f).id = ⟨E.fd, p⟩ := (h.pinned.at_pin (x := E.pin p f m) List.mem_cons_self).2.1
  have hunpin : s.bpm.unpinPage (s.bpm.pages (IxNodeHandle.mk f).frame).id isDirty = (bpm', true) := by rw [hid]; exact hrun
  unfold Paged.unpinPage
  refine Returns.get_bind (Returns.set_bind ?_)
  rw [hunpin]
  refine Returns.pure ⟨rfl, ⟨contents, { h with
    pinned := hpinned, poolSize := hsize.trans h.poolSize, fresh := fun {x} hx => ⟨(h.fresh hx).1, ?_⟩
    noHeader := (congrFun htable _).trans h.noHeader, counter := (congrFun hcounter _).trans h.counter }⟩, hrecent⟩
  obtain ⟨-, hnone, hfile⟩ := h.fresh hx
  exact ⟨(congrFun htable _).trans hnone, (congrFun hdisk _).trans hfile⟩

/-- The client writes a node to a page that it has pinned. -/
theorem Rep.setData {data : PageData} (h : Rep E s (E.pin p f m :: pins) ih) (hn : ih.pages p = some n)
    (hstores : Stores E.T data n') :
    Returns (setData ⟨f⟩ data) s fun _ s' => Rep E s' (E.pin p f true :: pins) (ih.setPage p n') ∧ s'.bpm.pageTable = s.bpm.pageTable := by
  obtain ⟨contents, h⟩ := h
  obtain ⟨hpos, hlt, -⟩ := h.nodes hn
  have hother : ∀ {pid : PageId}, pid ≠ ⟨E.fd, p⟩ → Function.update contents ⟨E.fd, p⟩ data pid = contents pid :=
    fun hne => Function.update_of_ne hne ..
  refine Returns.modify ⟨⟨Function.update contents ⟨E.fd, p⟩ data, { h with
    pinned := Pinned.write (A := []) h.pinned data, others := fun pid hpid => ?_, nodes := fun {x y} hy => ?_
    fresh := fun {x} hx => ⟨?_, (h.fresh hx).2⟩ }⟩, rfl⟩
  · rw [hother]
    · exact h.others pid hpid
    · rintro rfl
      rcases hpid with hpid | hpid
      · exact hpid rfl
      · have hzero : p = 0 := hpid
        omega
  · by_cases hxp : x = p
    · subst hxp
      obtain rfl := Option.some.inj ((Index.IxIndexHandle.setPage_self ih x n').symm.trans hy)
      rw [Function.update_self]
      exact ⟨hpos, hlt, hstores⟩
    · obtain ⟨hx, hx', hs⟩ := h.nodes ((Index.IxIndexHandle.setPage_of_ne hxp).symm.trans hy)
      rw [hother fun heq => hxp (congrArg PageId.pageNo heq)]
      exact ⟨hx, hx', hs⟩
  · rw [hother]
    · exact (h.fresh hx).1
    · intro heq
      have hxp : x = p := congrArg PageId.pageNo heq
      have hx' : ih.fd2pageno ≤ x := hx
      omega

/-- What is written is what is there. -/
theorem tryModifyData_self {change : PageData → Option PageData} (h : change (s.data ⟨f⟩) = some (s.data ⟨f⟩)) :
    Returns (tryModifyData ⟨f⟩ change) s fun _ s' => s' = s := by
  unfold Paged.tryModifyData
  refine Returns.get_bind ?_
  rw [h]
  refine Returns.modify ?_
  have hsame : Function.update s.bpm.pages f { s.bpm.pages f with data := (s.bpm.pages f).data } = s.bpm.pages :=
    Function.update_eq_self f s.bpm.pages
  change { s with bpm := { s.bpm with pages := Function.update s.bpm.pages f { s.bpm.pages f with data := (s.bpm.pages f).data } } } = s
  rw [hsame]

/-- Change the node of a page that is pinned. -/
theorem Rep.modifyData {change : PageData → PageData} {y : E.T.TreeNode} (h : Rep E s (E.pin p f m :: pins) ih)
    (hn : ih.pages p = some n) (hstores : Stores E.T (s.data ⟨f⟩) n → Stores E.T (change (s.data ⟨f⟩)) y) :
    Returns (modifyData ⟨f⟩ change) s fun _ s' => Rep E s' (E.pin p f true :: pins) (ih.setPage p y) ∧
      s'.bpm.pageTable = s.bpm.pageTable :=
  Returns.get_bind (h.setData hn (hstores (h.at_pin hn List.mem_cons_self).1))

theorem Rep.tryModifyData {change : PageData → Option PageData} {y : E.T.TreeNode} (h : Rep E s (E.pin p f m :: pins) ih)
    (hn : ih.pages p = some n)
    (hstores : Stores E.T (s.data ⟨f⟩) n → ∃ data, change (s.data ⟨f⟩) = some data ∧ Stores E.T data y) :
    Returns (tryModifyData ⟨f⟩ change) s fun _ s' => Rep E s' (E.pin p f true :: pins) (ih.setPage p y) ∧
      s'.bpm.pageTable = s.bpm.pageTable := by
  obtain ⟨data, hdata, hs⟩ := hstores (h.at_pin hn List.mem_cons_self).1
  unfold Paged.tryModifyData
  refine Returns.get_bind ?_
  rw [hdata]
  exact h.setData hn hs

/-- `create_node`. -/
theorem Rep.createNode (h : Rep E s pins ih) (hroom : pins.length < E.poolSize) (hint : ih.fd2pageno + 1 ≤ INT_MAX) :
    Returns createNode s fun g s' => Rep E s' (E.pin ih.fd2pageno g.frame false :: pins) ih.createNode.1 := by
  obtain ⟨contents, h⟩ := h
  obtain ⟨hzero, hnone, -⟩ := h.fresh (le_refl _)
  have hcounter := h.counter
  obtain ⟨bpm', frame, hrun, hpinned, hsize, hcounter', hbrings, hdisk⟩ := h.pinned.newPage
    (by rw [h.poolSize]; exact hroom) (show (⟨E.fd, ih.fd2pageno⟩ : PageId) = ⟨E.fd, s.bpm.fd2pageno E.fd⟩ by rw [hcounter]) hnone hzero
  have hnum : s.numPages ≠ INT_MAX := by
    rw [h.numPages, h.count]
    omega
  have hnew : s.bpm.newPage s.fd = (bpm', some (⟨E.fd, ih.fd2pageno⟩, frame)) := by rw [h.fd]; exact hrun
  unfold Paged.createNode
  refine Returns.get_bind ?_
  rw [if_neg hnum]
  refine Returns.set_bind ?_
  rw [hnew]
  refine Returns.pure ⟨contents, { h with
    pinned := hpinned, poolSize := hsize.trans h.poolSize, nodes := fun {x y} hy => ?_, fresh := fun {x} hx => ?_, noHeader := ?_
    counter := ?_, first := ?_, int := hint, count := ?_, numPages := ?_ }⟩
  · change 1 ≤ x ∧ x < ih.fd2pageno + 1 ∧ _
    by_cases hx : x = ih.fd2pageno
    · subst hx
      obtain rfl := Option.some.inj ((Function.update_self (ih.fd2pageno) _ ih.pages).symm.trans hy)
      rw [hzero]
      exact ⟨h.first, by omega, stores_zeros⟩
    · obtain ⟨hpos, hlt, hs⟩ := h.nodes ((Index.IxIndexHandle.createNode_of_ne hx).symm.trans hy)
      exact ⟨hpos, by omega, hs⟩
  · have hx' : ih.fd2pageno + 1 ≤ x := hx
    obtain ⟨hx₁, hx₂, hx₃⟩ := h.fresh (p := x) (by omega)
    refine ⟨hx₁, hbrings _ ?_ hx₂, (hdisk _ hx₂).trans hx₃⟩
    intro heq
    have := congrArg PageId.pageNo heq
    simp only at this
    omega
  · refine hbrings _ ?_ h.noHeader
    intro heq
    have hzero : 0 = ih.fd2pageno := congrArg PageId.pageNo heq
    have := h.first
    omega
  · rw [hcounter', Function.update_self, hcounter]
    rfl
  · have := h.first
    change 1 ≤ ih.fd2pageno + 1
    omega
  · change ih.numPages + 1 = ih.fd2pageno + 1
    rw [h.count]
  · change s.numPages + 1 = ih.numPages + 1
    rw [h.numPages]

/-! ### `split` -/

/-- What is written last to a page. -/
theorem setPage_setPage (ih : Index.IxIndexHandle (Key E.T.keyCols)) (p : ℤ) (n n' : E.T.TreeNode) :
    (ih.setPage p n).setPage p n' = ih.setPage p n' := by
  simp only [Index.IxIndexHandle.setPage, Function.update_idem]

theorem setPage_comm (hpq : p ≠ q) : (ih.setPage p n).setPage q n' = (ih.setPage q n').setPage p n := by
  simp only [Index.IxIndexHandle.setPage, Function.update_comm hpq]

/-- Another page is changed. -/
theorem modifyPage_setPage {F : E.T.TreeNode → E.T.TreeNode} (hqp : q ≠ p) (hrun : ih.modifyPage q F = some ih') :
    (ih.setPage p n).modifyPage q F = some (ih'.setPage p n) := by
  obtain ⟨x, hx, rfl⟩ := Option.map_eq_some_iff.mp hrun
  rw [setPage_comm hqp]
  exact Option.map_eq_some_iff.mpr ⟨x, (Index.IxIndexHandle.setPage_of_ne hqp).trans hx, rfl⟩

theorem Rep.maintainChild {i : ℕ} (h : Rep E s (E.pin q g true :: pins) ih) (hroom : pins.length + 2 ≤ E.poolSize)
    (hrun : ih.maintainChild q i = some ih') :
    Returns (maintainChild E.T.toNodeLayout ⟨g⟩ i) s fun _ s' => Rep E s' (E.pin q g true :: pins) ih' := by
  simp only [Index.IxIndexHandle.maintainChild, Option.bind_eq_bind, Option.bind_eq_some_iff] at hrun
  obtain ⟨n, hn, hrun⟩ := hrun
  obtain ⟨hs, hpage⟩ := h.at_pin hn List.mem_cons_self
  unfold Paged.maintainChild
  refine Returns.get_bind ?_
  rw [hs.isLeaf, hpage]
  split
  · rw [if_pos ‹_›] at hrun
    obtain rfl := Option.some.inj hrun
    exact Returns.pure h
  · rw [if_neg ‹_›] at hrun
    obtain ⟨c, hc, hrun⟩ := Option.bind_eq_some_iff.mp hrun
    obtain ⟨x, hx, rfl⟩ := Option.map_eq_some_iff.mp hrun
    rw [hs.valueAt hc]
    refine Returns.bind (h.fetchNode (by rw [List.length_cons]; omega) hx) ?_
    rintro child s₁ ⟨h₁, -⟩
    refine Returns.bind (h₁.modifyData (y := { x with parent := q }) hx fun hx' => hx'.setParent (h.inInt hn)) ?_
    rintro - s₂ ⟨h₂, -⟩
    refine Returns.bind (h₂.unpinPage fun _ => rfl) ?_
    rintro - s₃ ⟨-, h₃, -⟩
    exact Returns.pure h₃

/-- The loop of `split`. -/
theorem Rep.maintainChildren : ∀ {l : List ℕ} {s : IxIndexHandle} {ih : Index.IxIndexHandle (Key E.T.keyCols)},
    Rep E s (E.pin q g true :: pins) ih → pins.length + 2 ≤ E.poolSize → l.foldlM (fun ih i => ih.maintainChild q i) ih = some ih' →
    Returns (maintainChildren E.T.toNodeLayout ⟨g⟩ l) s fun _ s' => Rep E s' (E.pin q g true :: pins) ih'
  | [], _, _, h, _, hrun => by
    obtain rfl := Option.some.inj hrun
    exact Returns.pure h
  | _ :: _, _, _, h, hroom, hrun => by
    rw [List.foldlM_cons] at hrun
    obtain ⟨ih₁, hstep, hrun⟩ := Option.bind_eq_some_iff.mp hrun
    exact Returns.bind (h.maintainChild hroom hstep) fun _ _ h₁ => h₁.maintainChildren hroom hrun

/-- A new leaf is linked in. -/
theorem Rep.linkLeaf {k : Index.IxIndexHandle (Key E.T.keyCols)} (h : Rep E s (E.pin q g true :: E.pin p f true :: pins) ih)
    (hroom : pins.length + 3 ≤ E.poolSize) (hp : ih.pages p = some n) (hq : ih.pages q = some n') (hpq : p ≠ q) (hnext : n.nextLeaf ≠ p)
    (hrun : (if n.nextLeaf ≠ IX_LEAF_HEADER_PAGE then
      (ih.setPage q { n' with prevLeaf := p, nextLeaf := n.nextLeaf }).modifyPage n.nextLeaf fun next => { next with prevLeaf := q }
      else some (ih.setPage q { n' with prevLeaf := p, nextLeaf := n.nextLeaf })) = some k) :
    Returns (linkLeaf ⟨f⟩ ⟨g⟩) s fun _ s' => Rep E s' (E.pin q g true :: E.pin p f true :: pins)
      { k.setPage p { n with nextLeaf := q } with lastLeaf := if k.lastLeaf = p then q else k.lastLeaf } := by
  obtain ⟨hs, hpage⟩ := h.at_pin hp (List.mem_cons_of_mem _ List.mem_cons_self)
  obtain ⟨-, hpage'⟩ := h.at_pin hq List.mem_cons_self
  have hnextInt : InInt n.nextLeaf := hs.nextLeaf ▸ inInt_intAt ..
  -- the last two steps
  have hlast : ∀ {s₁ : IxIndexHandle} {ih₁ : Index.IxIndexHandle (Key E.T.keyCols)}, ih₁.pages p = some n →
      Rep E s₁ (E.pin q g true :: E.pin p f true :: pins) ih₁ →
      Returns (do
        Paged.modifyData ⟨f⟩ (setNextLeaf · q)
        modify fun f' => if f'.lastLeaf = p then { f' with lastLeaf := q } else f') s₁ fun _ s' =>
          Rep E s' (E.pin q g true :: E.pin p f true :: pins)
            { ih₁.setPage p { n with nextLeaf := q } with lastLeaf := if ih₁.lastLeaf = p then q else ih₁.lastLeaf } := by
    intro s₁ ih₁ hp₁ h₁
    refine Returns.bind ((h₁.perm (.swap ..)).modifyData hp₁ fun hs₁ => hs₁.setNextLeaf (h.inInt hq)) ?_
    rintro - s₂ ⟨h₂, -⟩
    refine Returns.modify ?_
    obtain ⟨contents, h₂⟩ := h₂.perm (.swap ..)
    have hlast := h₂.lastLeaf
    split
    · rw [if_pos (by rw [← ‹s₂.lastLeaf = p›]; exact hlast.symm)]
      exact ⟨contents, { h₂ with lastLeaf := rfl }⟩
    · rw [if_neg (by rwa [← show s₂.lastLeaf = ih₁.lastLeaf from hlast])]
      exact ⟨contents, h₂⟩
  unfold Paged.linkLeaf
  refine Returns.get_bind ?_
  rw [hpage, hpage', hs.nextLeaf]
  refine Returns.bind (h.modifyData (y := { n' with prevLeaf := p, nextLeaf := n.nextLeaf }) hq fun hs' =>
    (hs'.setPrevLeaf (h.inInt hp)).setNextLeaf hnextInt) ?_
  rintro - s₁ ⟨h₁, -⟩
  have hp₁ : (ih.setPage q { n' with prevLeaf := p, nextLeaf := n.nextLeaf }).pages p = some n :=
    (Index.IxIndexHandle.setPage_of_ne hpq).trans hp
  dsimp only
  split
  · rw [if_pos ‹_›] at hrun
    obtain ⟨x, hx, rfl⟩ := Option.map_eq_some_iff.mp hrun
    refine Returns.bind (h₁.fetchNode (by simp only [List.length_cons]; omega) hx) ?_
    rintro next s₂ ⟨h₂, -⟩
    refine Returns.bind (h₂.modifyData (y := { x with prevLeaf := q }) hx fun hx' => hx'.setPrevLeaf (h.inInt hq)) ?_
    rintro - s₃ ⟨h₃, -⟩
    refine Returns.bind (h₃.unpinPage fun _ => rfl) ?_
    rintro - s₄ ⟨-, h₄, -⟩
    exact hlast ((Index.IxIndexHandle.setPage_of_ne hnext.symm).trans hp₁) h₄
  · rw [if_neg ‹_›] at hrun
    obtain rfl := Option.some.inj hrun
    exact hlast hp₁ h₁

/-- The node of a page that has been created, before pairs are put into it. -/
theorem stores_created {page : PageData} {parent : ℤ} (h : Stores E.T page ⟨false, 0, 0, 0, []⟩) (hparent : InInt parent) (isLeaf : Bool) :
    Stores E.T (setSize (setParentPageNo (setIsLeaf page isLeaf) parent) 0) ⟨isLeaf, parent, 0, 0, []⟩ :=
  ((h.setIsLeaf isLeaf).setParent hparent).setSize (Nat.zero_le _)

/-- **`split`.** -/
theorem Rep.split (h : Rep E s (E.pin p f m :: pins) ih) (hroom : pins.length + 3 ≤ E.poolSize) (hn : ih.pages p = some n)
    (hnext : n.isLeaf = true → n.nextLeaf ≠ p) (hrun : ih.split p = some (ih', q)) (hint : ih'.fd2pageno ≤ INT_MAX) :
    Returns (split E.T.toNodeLayout ⟨f⟩) s fun g s' => Rep E s' (E.pin q g.frame true :: E.pin p f true :: pins) ih' := by
  obtain ⟨rfl, hcount⟩ := Index.IxIndexHandle.Grows.split_count hrun
  have hpq : p ≠ ih.fd2pageno := by
    obtain ⟨contents, h⟩ := h
    exact (h.nodes hn).2.1.ne
  unfold Paged.split
  refine Returns.bind (h.createNode (by rw [List.length_cons]; omega) (by omega)) ?_
  intro g s₁ h₁
  have hn₁ : ih.createNode.1.pages p = some n := (Index.IxIndexHandle.createNode_of_ne hpq).trans hn
  have hq₁ : ih.createNode.1.pages ih.fd2pageno = some ⟨false, 0, 0, 0, []⟩ := Function.update_self ..
  obtain ⟨hs, -⟩ := h₁.at_pin hn₁ (List.mem_cons_of_mem _ List.mem_cons_self)
  have hparent : InInt n.parent := hs.parent ▸ inInt_intAt ..
  simp only [Index.IxIndexHandle.split, Option.bind_eq_bind, Option.bind_eq_some_iff] at hrun
  obtain ⟨node, hnode, newNode, hins, hrun⟩ := hrun
  obtain rfl := Option.some.inj (hn.symm.trans hnode)
  have hmax : ih.createNode.1.maxSize = E.T.maxSize := h₁.maxSize
  rw [hmax] at hins
  refine Returns.get_bind ?_
  dsimp only
  rw [hs.isLeaf, hs.parent, hs.toNat_size]
  refine Returns.bind (h₁.modifyData hq₁ fun hs' => stores_created hs' hparent n.isLeaf) ?_
  rintro - s₂ ⟨h₂, -⟩
  have hmove : (n.pairs.drop (n.size / 2)).length = n.size - n.size / 2 := List.length_drop ..
  refine Returns.bind (h₂.tryModifyData (y := newNode) (Index.IxIndexHandle.setPage_self ..) fun hs' => ?_) ?_
  · rw [← hmove]
    exact hs'.insertPairs (by rw [length_cellsAt]) (by rw [length_cellsAt])
      (by rw [hmove]; exact hs.upper (Nat.add_sub_cancel' (Nat.div_le_self ..))) hins
  rw [setPage_setPage]
  rintro - s₃ ⟨h₃, -⟩
  have hn₃ : (ih.createNode.1.setPage ih.fd2pageno newNode).pages p = some n := (Index.IxIndexHandle.setPage_of_ne hpq).trans hn₁
  refine Returns.bind ((h₃.perm (.swap ..)).modifyData (y := { n with pairs := n.pairs.take (n.size / 2) }) hn₃ fun hs' =>
    hs'.setSize (Nat.div_le_self ..)) ?_
  rintro - s₄ ⟨h₄, -⟩
  have hq₄ : ((ih.createNode.1.setPage ih.fd2pageno newNode).setPage p { n with pairs := n.pairs.take (n.size / 2) }).pages
      ih.fd2pageno = some newNode := (Index.IxIndexHandle.setPage_of_ne hpq.symm).trans (Index.IxIndexHandle.setPage_self ..)
  cases hleaf : n.isLeaf with
  | true =>
    rw [if_pos hleaf] at hrun
    rw [if_pos rfl]
    obtain ⟨ih₁, hlinked, hih⟩ : ∃ ih₁, (if n.nextLeaf ≠ IX_LEAF_HEADER_PAGE then
        (ih.createNode.1.setPage ih.fd2pageno { newNode with prevLeaf := p, nextLeaf := n.nextLeaf }).modifyPage n.nextLeaf
          fun next => { next with prevLeaf := ih.fd2pageno }
        else some (ih.createNode.1.setPage ih.fd2pageno { newNode with prevLeaf := p, nextLeaf := n.nextLeaf })) = some ih₁ ∧
        ih' = { ih₁.setPage p { n with pairs := n.pairs.take (n.size / 2), nextLeaf := ih.fd2pageno } with
          lastLeaf := if ih₁.lastLeaf = p then ih.fd2pageno else ih₁.lastLeaf } := by
      split at hrun
      · rw [if_pos ‹_›]
        obtain ⟨ih₁, hnext, hrun⟩ := Option.bind_eq_some_iff.mp hrun
        exact ⟨ih₁, hnext, (Prod.mk.inj (Option.some.inj hrun)).1.symm⟩
      · rw [if_neg ‹_›]
        exact ⟨_, rfl, (Prod.mk.inj (Option.some.inj hrun)).1.symm⟩
    have hlinked' := (h₄.perm (.swap ..)).linkLeaf (k := ih₁.setPage p { n with pairs := n.pairs.take (n.size / 2) })
      (by omega) (Index.IxIndexHandle.setPage_self ..) hq₄ hpq (hnext hleaf) (by
        rw [setPage_comm hpq, setPage_setPage]
        split
        · rw [if_pos ‹_›] at hlinked
          exact modifyPage_setPage (hnext hleaf) hlinked
        · rw [if_neg ‹_›] at hlinked
          rw [Option.some.inj hlinked])
    rw [setPage_setPage] at hlinked'
    refine Returns.bind hlinked' fun _ s₅ h₅ => Returns.pure ?_
    rw [hih]
    exact h₅
  | false =>
    rw [if_neg (by rw [hleaf]; exact Bool.false_ne_true)] at hrun
    rw [if_neg Bool.false_ne_true]
    obtain ⟨ih₁, hfold, hrun⟩ := Option.bind_eq_some_iff.mp hrun
    obtain ⟨rfl, -⟩ := Prod.mk.inj (Option.some.inj hrun)
    refine Returns.get_bind ?_
    obtain ⟨hs₄, -⟩ := (h₄.perm (.swap ..)).at_pin hq₄ List.mem_cons_self
    rw [show getSize (s₄.data g) = newNode.size from hs₄.size, Int.toNat_natCast]
    exact Returns.bind ((h₄.perm (.swap ..)).maintainChildren (by rw [List.length_cons]; omega) hfold) fun _ s₅ h₅ => Returns.pure h₅

/-! ### `insert_into_parent` -/

theorem perm_third (x y z : Pin) (pins : List Pin) : (x :: y :: z :: pins).Perm (z :: x :: y :: pins) :=
  (List.Perm.cons x (.swap ..)).trans (.swap ..)

/-- The child pointers are `int`s. -/
theorem Rep.ridOk (h : Rep E s pins ih) (hn : ih.pages p = some n) : RidOk ⟨p, -1⟩ := ⟨h.inInt hn, show InInt (-1) from ⟨by decide, by decide⟩⟩

/-- A new root. -/
theorem Rep.insertIntoRoot {oldKey newKey : Key E.T.keyCols} {root root' : E.T.TreeNode} {ih₁ ih₂ : Index.IxIndexHandle (Key E.T.keyCols)}
    (h : Rep E s (E.pin q g true :: E.pin p f true :: pins) ih) (hroom : pins.length + 3 ≤ E.poolSize) (hint : ih.fd2pageno + 1 ≤ INT_MAX)
    (hp : ih.pages p = some n) (hq : ih.pages q = some n') (hold : n.keyAt 0 = some oldKey) (hnew : n'.keyAt 0 = some newKey)
    (hroot : Node.insertPair ih.maxSize ⟨false, IX_NO_PAGE, 0, 0, []⟩ 0 oldKey ⟨p, -1⟩ = some root)
    (hroot' : root.insertPair ih.maxSize 1 newKey ⟨q, -1⟩ = some root')
    (h₁ : (ih.createNode.1.setPage ih.fd2pageno root').modifyPage p (fun n => { n with parent := ih.fd2pageno }) = some ih₁)
    (h₂ : ih₁.modifyPage q (fun n => { n with parent := ih.fd2pageno }) = some ih₂) :
    Returns (insertIntoRoot E.T.toNodeLayout ⟨f⟩ ⟨g⟩) s fun _ s' =>
      Rep E s' (E.pin q g true :: E.pin p f true :: pins) { ih₂ with rootPage := ih.fd2pageno } := by
  have hmax := h.maxSize
  have hne : ∀ {x y}, ih.pages x = some y → x ≠ ih.fd2pageno := fun hx => by
    obtain ⟨contents, h⟩ := h
    exact (h.nodes hx).2.1.ne
  rw [hmax] at hroot hroot'
  unfold Paged.insertIntoRoot
  refine Returns.bind (h.createNode (by simp only [List.length_cons]; omega) hint) ?_
  intro r s₁ hs₁
  have hp₁ : ih.createNode.1.pages p = some n := (Index.IxIndexHandle.createNode_of_ne (hne hp)).trans hp
  have hq₁ : ih.createNode.1.pages q = some n' := (Index.IxIndexHandle.createNode_of_ne (hne hq)).trans hq
  have hr₁ : ih.createNode.1.pages ih.fd2pageno = some ⟨false, 0, 0, 0, []⟩ := Function.update_self ..
  have hrInt : InInt ih.fd2pageno := hs₁.inInt hr₁
  obtain ⟨hsp, hpage⟩ := hs₁.at_pin hp₁ (show E.pin p f true ∈ _ by simp)
  obtain ⟨hsq, hpage'⟩ := hs₁.at_pin hq₁ (show E.pin q g true ∈ _ by simp)
  obtain ⟨-, hrpage⟩ := hs₁.at_pin hr₁ List.mem_cons_self
  refine Returns.get_bind ?_
  rw [hpage, hpage', hsp.keyAt hold, hsq.keyAt hnew, show s₁.pageNo r = ih.fd2pageno from hrpage]
  refine Returns.bind (hs₁.modifyData hr₁ fun hs => stores_created hs ⟨by decide, by decide⟩ false) ?_
  rintro - s₂ ⟨hs₂, -⟩
  refine Returns.bind (hs₂.tryModifyData (Index.IxIndexHandle.setPage_self ..) fun hs => hs.insertPair (h.ridOk hp) hroot) ?_
  rw [setPage_setPage]
  rintro - s₃ ⟨hs₃, -⟩
  refine Returns.bind (hs₃.tryModifyData (Index.IxIndexHandle.setPage_self ..) fun hs => hs.insertPair (h.ridOk hq) hroot') ?_
  rw [setPage_setPage]
  rintro - s₄ ⟨hs₄, -⟩
  obtain ⟨x, hx, rfl⟩ := Option.map_eq_some_iff.mp h₁
  obtain ⟨y, hy, rfl⟩ := Option.map_eq_some_iff.mp h₂
  refine Returns.bind ((hs₄.perm (perm_third ..)).modifyData hx fun hs => hs.setParent hrInt) ?_
  rintro - s₅ ⟨hs₅, -⟩
  refine Returns.bind ((hs₅.perm (perm_third ..)).modifyData hy fun hs => hs.setParent hrInt) ?_
  rintro - s₆ ⟨hs₆, -⟩
  have hs₇ : Rep E { s₆ with rootPage := ih.fd2pageno } (E.pin ih.fd2pageno r.frame true :: E.pin q g true :: E.pin p f true :: pins)
      { ((ih.createNode.1.setPage ih.fd2pageno root').setPage p { x with parent := ih.fd2pageno }).setPage q
        { y with parent := ih.fd2pageno } with rootPage := ih.fd2pageno } := by
    obtain ⟨contents, hs₆⟩ := hs₆.perm (perm_third ..)
    exact ⟨contents, { hs₆ with rootPage := rfl }⟩
  refine Returns.bind (R := fun _ s' => s' = { s₆ with rootPage := ih.fd2pageno }) (Returns.modify rfl) ?_
  rintro - s₇ rfl
  refine Returns.bind (hs₇.unpinPage fun _ => rfl) ?_
  rintro - s₈ ⟨-, hs₈, -⟩
  exact Returns.pure hs₈

/-- **`insert_into_parent`**, of a node at level `r` of a tree with `H` levels above the leaves. -/
theorem Rep.insertIntoParent : ∀ {b : ℕ} {s : IxIndexHandle} {ih : Index.IxIndexHandle (Key E.T.keyCols)} {R : ℤ → ℕ → Prop}
    {H r : ℕ} {p q : ℤ} {key : Key E.T.keyCols} {f g : ℕ} {pins : List Pin},
    ih.Leveled R H → R p r → R q r → Rep E s (E.pin q g true :: E.pin p f true :: pins) ih →
    pins.length + 2 * (H - r) + 3 ≤ E.poolSize → Index.IxIndexHandle.insertIntoParent b ih p key q = some ih' →
    ih'.fd2pageno ≤ INT_MAX → Returns (insertIntoParent E.T.toNodeLayout b ⟨f⟩ key.1 ⟨g⟩) s fun _ s' =>
      Rep E s' (E.pin q g true :: E.pin p f true :: pins) ih'
  | 0, _, _, _, _, _, _, _, _, _, _, _, _, _, _, _, _, hrun, _ => by cases hrun
  | b + 1, s, ih, R, H, r, p, q, key, f, g, pins, hlev, hp, hq, h, hroom, hrun, hint => by
    simp only [Index.IxIndexHandle.insertIntoParent, Option.bind_eq_bind, Option.bind_eq_some_iff] at hrun
    obtain ⟨n, hn, n', hn', hrun⟩ := hrun
    obtain ⟨hs, hpage⟩ := h.at_pin hn (show E.pin p f true ∈ _ by simp)
    unfold Paged.insertIntoParent
    refine Returns.get_bind ?_
    rw [hs.parent]
    by_cases hroot : n.parent = IX_NO_PAGE
    · rw [if_pos (by rw [Node.isRootPage, hroot]; rfl)] at hrun
      rw [if_pos hroot]
      simp only [Option.bind_eq_some_iff] at hrun
      obtain ⟨oldKey, hold, newKey, hnew, root, hroot, root', hroot', ih₁, h₁, ih₂, h₂, hrun⟩ := hrun
      obtain rfl := Option.some.inj hrun
      have hcount : ih₂.fd2pageno = ih.fd2pageno + 1 := by
        obtain ⟨x, -, rfl⟩ := Option.map_eq_some_iff.mp h₁
        obtain ⟨y, -, rfl⟩ := Option.map_eq_some_iff.mp h₂
        rfl
      exact h.insertIntoRoot (by omega) (hcount.symm.trans_le hint) hn hn' hold hnew hroot hroot' h₁ h₂
    · rw [if_neg (by rw [Node.isRootPage]; simpa using hroot)] at hrun
      rw [if_neg hroot]
      simp only [Option.bind_eq_some_iff] at hrun
      obtain ⟨parent, hparent, pos, hpos, parent', hins, ih₁, hadopt, hrun⟩ := hrun
      obtain ⟨hup, hlev₁⟩ := hlev.link hp hq hn hroot hparent hins hadopt
      have hHr := hlev.le hup
      have hqup : n.parent ≠ q := fun heq => by
        have := hlev.unique hq (heq ▸ hup)
        omega
      have hmax := h.maxSize
      refine Returns.bind (h.fetchNode (by simp only [List.length_cons]; omega) hparent) ?_
      rintro ⟨k⟩ s₁ ⟨h₁, -⟩
      obtain ⟨hs₁, hup₁⟩ := h₁.at_pin hparent List.mem_cons_self
      obtain ⟨-, hpage₁⟩ := h₁.at_pin hn (show E.pin p f true ∈ _ by simp)
      obtain ⟨-, hpage₁'⟩ := h₁.at_pin hn' (show E.pin q g true ∈ _ by simp)
      refine Returns.get_bind ?_
      rw [hpage₁, hpage₁', hup₁, hs₁.findChild hpos]
      rw [hmax] at hins
      refine Returns.bind (h₁.tryModifyData hparent fun hs' => hs'.insertPair (h.ridOk hn') hins) ?_
      rintro - s₂ ⟨h₂, -⟩
      obtain ⟨x, hx, hih₁⟩ := Option.map_eq_some_iff.mp hadopt
      refine Returns.bind ((h₂.perm (.swap ..)).modifyData hx fun hs' => hs'.setParent (h.inInt hparent)) ?_
      rw [hih₁]
      rintro - s₃ ⟨h₃, -⟩
      have hparent₃ : ih₁.pages n.parent = some parent' := by
        rw [← hih₁]
        exact (Index.IxIndexHandle.setPage_of_ne hqup).trans (Index.IxIndexHandle.setPage_self ..)
      have h₃' := h₃.perm (.swap ..)
      obtain ⟨hs₃, -⟩ := h₃'.at_pin hparent₃ List.mem_cons_self
      refine Returns.get_bind ?_
      dsimp only
      rw [hs₃.size]
      rw [h₃.maxSize] at hrun
      split
      · rename_i hfull
        rw [if_pos (by exact_mod_cast hfull)] at hrun
        simp only [Option.bind_eq_some_iff] at hrun
        obtain ⟨⟨ih₂, newParent⟩, hsplit, node, hnode, newKey, hkey, hrun⟩ := hrun
        have hcount := (Index.IxIndexHandle.Grows.insertIntoParent hrun).count
        refine Returns.bind (h₃'.split (by simp only [List.length_cons]; omega) hparent₃ (fun hleaf => ?_) hsplit
          (hcount.trans hint)) ?_
        · cases (hlev₁.leaf hup hparent₃).mp hleaf
        rintro ⟨l⟩ s₄ h₄
        obtain ⟨hs₄, -⟩ := h₄.at_pin hnode List.mem_cons_self
        refine Returns.get_bind ?_
        rw [hs₄.keyAt hkey]
        have hlev₂ := hlev₁.split hup hsplit
        refine Returns.bind (Rep.insertIntoParent hlev₂ (Or.inl hup) (Or.inr ⟨rfl, rfl⟩) h₄
          (by simp only [List.length_cons]; omega) hrun hint) ?_
        intro _ s₅ h₅
        refine Returns.bind (h₅.unpinPage fun _ => rfl) ?_
        rintro - s₆ ⟨-, h₆, -⟩
        refine Returns.bind (h₆.unpinPage fun _ => rfl) ?_
        rintro - s₇ ⟨-, h₇, -⟩
        exact Returns.pure h₇
      · rename_i hfull
        rw [if_neg (by exact_mod_cast hfull)] at hrun
        obtain rfl := Option.some.inj hrun
        refine Returns.bind (h₃'.unpinPage fun _ => rfl) ?_
        rintro - s₄ ⟨-, h₄, -⟩
        exact Returns.pure h₄

/-! ### `maintain_parent` -/

/-- Keys are compared byte by byte. -/
theorem memcmp_key {a b : Key E.T.keyCols} : memcmp E.T.keyLen a.1 b.1 = 0 ↔ a = b := by
  have ha := E.T.length_key a
  have hb := E.T.length_key b
  constructor
  · intro h
    have heq := memcmp_eq_zero ha.ge hb.ge h
    rw [List.take_of_length_le ha.le, List.take_of_length_le hb.le] at heq
    exact Subtype.ext heq
  · rintro rfl
    exact memcmp_eq_zero_iff.mpr fun _ _ => rfl

/-- **`maintain_parent`**. A page that has been unpinned is still in its frame when its parent has been fetched. -/
theorem Rep.maintainParent : ∀ {b : ℕ} {s : IxIndexHandle} {ih : Index.IxIndexHandle (Key E.T.keyCols)} {p : ℤ} {f : ℕ},
    Rep E s pins ih → Recent s.bpm ⟨E.fd, p⟩ f → pins.length + 2 ≤ E.poolSize →
    Index.IxIndexHandle.maintainParent b ih p = some ih' →
    Returns (maintainParent E.T.toNodeLayout b ⟨f⟩) s fun _ s' => Rep E s' pins ih'
  | 0, _, _, _, _, _, _, _, hrun => by cases hrun
  | b + 1, s, ih, p, f, h, hrecent, hroom, hrun => by
    simp only [Index.IxIndexHandle.maintainParent, Option.bind_eq_bind, Option.bind_eq_some_iff] at hrun
    obtain ⟨n, hn, hrun⟩ := hrun
    obtain ⟨hs, -⟩ := h.at_table hn hrecent.1
    unfold Paged.maintainParent
    refine Returns.get_bind ?_
    rw [hs.parent]
    split
    · rw [if_pos ‹_›] at hrun
      obtain rfl := Option.some.inj hrun
      exact Returns.pure h
    · rw [if_neg ‹_›] at hrun
      simp only [Option.bind_eq_some_iff] at hrun
      obtain ⟨parent, hparent, rank, hrank, parentKey, hparentKey, key, hkey, hrun⟩ := hrun
      refine Returns.bind (h.fetchNode (by omega) hparent) ?_
      rintro ⟨k⟩ s₁ ⟨h₁, hstill⟩
      obtain ⟨hs₁, hpage₁⟩ := h₁.at_table hn (hstill p f hrecent hroom)
      obtain ⟨hs₁', -⟩ := h₁.at_pin hparent List.mem_cons_self
      refine Returns.get_bind ?_
      rw [hpage₁, hs₁'.findChild hrank]
      dsimp only
      rw [hs₁'.keyAt hparentKey, hs₁.keyAt hkey]
      by_cases heq : parentKey = key
      · rw [if_pos heq] at hrun
        obtain rfl := Option.some.inj hrun
        rw [if_pos (memcmp_key.mpr heq)]
        refine Returns.bind (h₁.unpinPage fun _ => rfl) ?_
        rintro - s₂ ⟨rfl, h₂, -⟩
        exact Returns.pure h₂
      · rw [if_neg heq] at hrun
        rw [if_neg (mt memcmp_key.mp heq)]
        have hlt : rank < parent.size := by
          obtain ⟨e, he, -⟩ := Option.map_eq_some_iff.mp hparentKey
          exact (List.getElem?_eq_some_iff.mp he).1
        refine Returns.bind (h₁.setData hparent (hs₁'.setKey hlt)) ?_
        rintro - s₂ ⟨h₂, -⟩
        refine Returns.bind (h₂.unpinPage fun _ => rfl) ?_
        rintro - s₃ ⟨rfl, h₃, hrecent'⟩
        exact h₃.maintainParent hrecent' hroom hrun

/-! ### Searching -/

theorem Rep.findLeafLoop {key : Key E.T.keyCols} {findFirst : Bool} : ∀ {b : ℕ} {s : IxIndexHandle} {p : ℤ} {f : ℕ},
    Rep E s (E.pin p f false :: pins) ih → pins.length < E.poolSize → ih.findLeafLoop key findFirst b p = some q →
    Returns (findLeafLoop E.T.toNodeLayout key.1 findFirst b ⟨f⟩) s fun g s' => Rep E s' (E.pin q g.frame false :: pins) ih
  | 0, _, _, _, _, _, hrun => by cases hrun
  | b + 1, s, p, f, h, hroom, hrun => by
    simp only [Index.IxIndexHandle.findLeafLoop, Option.bind_eq_bind, Option.bind_eq_some_iff] at hrun
    obtain ⟨n, hn, hrun⟩ := hrun
    obtain ⟨hs, -⟩ := h.at_pin hn List.mem_cons_self
    unfold Paged.findLeafLoop
    refine Returns.get_bind ?_
    rw [hs.isLeaf]
    split
    · rw [if_pos ‹_›] at hrun
      obtain rfl := Option.some.inj hrun
      exact Returns.pure h
    · rw [if_neg ‹_›] at hrun
      obtain ⟨c, hc, hrun⟩ : ∃ c, (if findFirst then valueAt E.T.toNodeLayout (s.data ⟨f⟩) 0
          else internalLookup E.T.toNodeLayout (s.data ⟨f⟩) key.1) = c ∧ ih.findLeafLoop key findFirst b c = some q := by
        split at hrun
        · obtain ⟨c, hc, hrun⟩ := Option.bind_eq_some_iff.mp hrun
          exact ⟨c, by rw [if_pos ‹_›]; exact hs.valueAt hc, hrun⟩
        · obtain ⟨c, hc, hrun⟩ := Option.bind_eq_some_iff.mp hrun
          exact ⟨c, by rw [if_neg ‹_›]; exact hs.internalLookup hc, hrun⟩
      rw [hc]
      refine Returns.bind (h.unpinPage fun h => h) ?_
      rintro - s₁ ⟨-, h₁, -⟩
      obtain ⟨x, hx⟩ := Index.IxIndexHandle.Grows.exists_of_findLeafLoop hrun
      refine Returns.bind (h₁.fetchNode hroom hx) ?_
      rintro ⟨g⟩ s₂ ⟨h₂, -⟩
      exact h₂.findLeafLoop hroom hrun

/-- **`find_leaf_page`**, of a tree or of none. -/
theorem Rep.findLeafPage {key : Key E.T.keyCols} {findFirst : Bool} {leaf : Option ℤ} (h : Rep E s pins ih)
    (hroom : pins.length < E.poolSize) (hrun : ih.findLeafPage key findFirst = some leaf) :
    Returns (findLeafPage E.T.toNodeLayout key.1 findFirst) s fun node s' => (leaf = none ∧ node = none ∧ Rep E s' pins ih) ∨
      ∃ p f, leaf = some p ∧ node = some ⟨f⟩ ∧ Rep E s' (E.pin p f false :: pins) ih := by
  have hroot : s.rootPage = ih.rootPage := by
    obtain ⟨contents, h⟩ := h
    exact h.rootPage
  have hbound := h.bound
  unfold Index.IxIndexHandle.findLeafPage at hrun
  unfold Paged.findLeafPage
  refine Returns.get_bind ?_
  rw [hroot, hbound]
  by_cases hempty : ih.rootPage = IX_NO_PAGE
  · rw [if_pos (by rw [Index.IxIndexHandle.isEmpty, hempty]; rfl)] at hrun
    rw [if_pos hempty]
    exact Returns.pure (Or.inl ⟨(Option.some.inj hrun).symm, rfl, h⟩)
  · rw [if_neg (by rw [Index.IxIndexHandle.isEmpty]; simpa using hempty)] at hrun
    rw [if_neg hempty]
    obtain ⟨q, hq, rfl⟩ := Option.map_eq_some_iff.mp hrun
    obtain ⟨x, hx⟩ := Index.IxIndexHandle.Grows.exists_of_findLeafLoop hq
    refine Returns.bind (h.fetchNode hroom hx) ?_
    rintro ⟨g⟩ s₁ ⟨h₁, -⟩
    refine Returns.bind (h₁.findLeafLoop hroom hq) ?_
    rintro ⟨g'⟩ s₂ h₂
    exact Returns.pure (Or.inr ⟨q, g', rfl, rfl, h₂⟩)

/-- **`get_value`.** -/
theorem Rep.getValue {key : Key E.T.keyCols} {v : Option Rid} (h : Rep E s pins ih) (hroom : pins.length < E.poolSize)
    (hrun : ih.getValue key = some v) : Returns (getValue E.T.toNodeLayout key.1) s fun v' s' => v' = v ∧ Rep E s' pins ih := by
  simp only [Index.IxIndexHandle.getValue, Option.bind_eq_bind, Option.bind_eq_some_iff] at hrun
  obtain ⟨leaf, hleaf, hrun⟩ := hrun
  unfold Paged.getValue
  refine Returns.bind (h.findLeafPage hroom hleaf) ?_
  rintro node s₁ (⟨rfl, rfl, h₁⟩ | ⟨p, f, rfl, rfl, h₁⟩)
  · exact Returns.pure ⟨Option.some.inj hrun, h₁⟩
  · obtain ⟨n, hn, hrun⟩ := Option.bind_eq_some_iff.mp hrun
    obtain ⟨hs, -⟩ := h₁.at_pin hn List.mem_cons_self
    refine Returns.get_bind ?_
    rw [hs.leafLookup]
    refine Returns.bind (h₁.unpinPage fun h => h) ?_
    rintro - s₂ ⟨-, h₂, -⟩
    exact Returns.pure ⟨Option.some.inj hrun, h₂⟩

theorem Rep.lastLeaf (h : Rep E s pins ih) : s.lastLeaf = ih.lastLeaf := by
  obtain ⟨contents, h⟩ := h
  exact h.lastLeaf

/-- `leaf_end`. -/
theorem Rep.leafEnd {iid : Iid} (h : Rep E s pins ih) (hroom : pins.length < E.poolSize) (hrun : ih.leafEnd = some iid) :
    Returns leafEnd s fun iid' s' => iid' = iid ∧ Rep E s' pins ih := by
  obtain ⟨n, hn, hrun⟩ := Option.bind_eq_some_iff.mp hrun
  obtain rfl := Option.some.inj hrun
  unfold Paged.leafEnd
  refine Returns.get_bind ?_
  rw [h.lastLeaf]
  refine Returns.bind (h.fetchNode hroom hn) ?_
  rintro ⟨g⟩ s₁ ⟨h₁, -⟩
  obtain ⟨hs, -⟩ := h₁.at_pin hn List.mem_cons_self
  refine Returns.get_bind ?_
  rw [hs.toNat_size]
  refine Returns.bind (h₁.unpinPage fun h => h) ?_
  rintro - s₂ ⟨-, h₂, -⟩
  exact Returns.pure ⟨rfl, h₂⟩

/-- The loop of `lower_bound` and `upper_bound`. -/
theorem Rep.skipLeaves {iid : Iid} : ∀ {b pos : ℕ} {s : IxIndexHandle} {p : ℤ} {f : ℕ}, Rep E s (E.pin p f false :: pins) ih →
    pins.length < E.poolSize → ih.skipLeaves b p pos = some iid →
    Returns (skipLeaves b ⟨f⟩ p pos) s fun iid' s' => iid' = iid ∧ Rep E s' pins ih
  | 0, _, _, _, _, _, _, hrun => by cases hrun
  | b + 1, pos, s, p, f, h, hroom, hrun => by
    obtain ⟨n, hn, hrun⟩ := Option.bind_eq_some_iff.mp hrun
    obtain ⟨hs, -⟩ := h.at_pin hn List.mem_cons_self
    unfold Paged.skipLeaves
    refine Returns.get_bind ?_
    rw [hs.size, h.lastLeaf, hs.nextLeaf]
    by_cases hskip : pos = n.size ∧ p ≠ ih.lastLeaf
    · rw [if_pos hskip] at hrun
      rw [if_pos (by exact_mod_cast hskip)]
      refine Returns.bind (h.unpinPage fun h => h) ?_
      rintro - s₁ ⟨-, h₁, -⟩
      obtain ⟨x, hx⟩ : ∃ x, ih.pages n.nextLeaf = some x := by
        cases b with
        | zero => cases hrun
        | succ b =>
          obtain ⟨x, hx, -⟩ := Option.bind_eq_some_iff.mp hrun
          exact ⟨x, hx⟩
      refine Returns.bind (h₁.fetchNode hroom hx) ?_
      rintro ⟨g⟩ s₂ ⟨h₂, -⟩
      obtain ⟨-, hpage⟩ := h₂.at_pin hx List.mem_cons_self
      refine Returns.get_bind ?_
      rw [hpage]
      exact h₂.skipLeaves hroom hrun
    · rw [if_neg hskip] at hrun
      rw [if_neg (by exact_mod_cast hskip)]
      refine Returns.bind (h.unpinPage fun h => h) ?_
      rintro - s₁ ⟨-, h₁, -⟩
      exact Returns.pure ⟨Option.some.inj hrun, h₁⟩

/-- Both searches. -/
theorem Rep.boundBy {key : Key E.T.keyCols} {iid : Iid} {search : PageData → ℕ} {search' : E.T.TreeNode → ℕ} (h : Rep E s pins ih)
    (hroom : pins.length < E.poolSize) (hsearch : ∀ {page n}, Stores E.T page n → search page = search' n)
    (hrun : ih.boundBy search' key = some iid) :
    Returns (boundBy E.T.toNodeLayout search key.1) s fun iid' s' => iid' = iid ∧ Rep E s' pins ih := by
  simp only [Index.IxIndexHandle.boundBy, Option.bind_eq_bind, Option.bind_eq_some_iff] at hrun
  obtain ⟨leaf, hleaf, hrun⟩ := hrun
  unfold Paged.boundBy
  refine Returns.bind (h.findLeafPage hroom hleaf) ?_
  rintro node s₁ (⟨rfl, rfl, h₁⟩ | ⟨p, f, rfl, rfl, h₁⟩)
  · exact h₁.leafEnd hroom hrun
  · obtain ⟨n, hn, hrun⟩ := Option.bind_eq_some_iff.mp hrun
    obtain ⟨hs, hpage⟩ := h₁.at_pin hn List.mem_cons_self
    refine Returns.get_bind ?_
    rw [hsearch hs, hpage, h₁.bound]
    exact h₁.skipLeaves hroom hrun

/-- `lower_bound`. -/
theorem Rep.lowerBound {key : Key E.T.keyCols} {iid : Iid} (h : Rep E s pins ih) (hroom : pins.length < E.poolSize)
    (hrun : ih.lowerBound key = some iid) :
    Returns (lowerBound E.T.toNodeLayout key.1) s fun iid' s' => iid' = iid ∧ Rep E s' pins ih :=
  h.boundBy hroom (fun hs => hs.lowerBound) hrun

/-- `upper_bound`. -/
theorem Rep.upperBound {key : Key E.T.keyCols} {iid : Iid} (h : Rep E s pins ih) (hroom : pins.length < E.poolSize)
    (hrun : ih.upperBound key = some iid) :
    Returns (upperBound E.T.toNodeLayout key.1) s fun iid' s' => iid' = iid ∧ Rep E s' pins ih :=
  h.boundBy hroom (fun hs => hs.upperBound) hrun

/-- `get_rid` of a slot with a pair. The page is read after it has been unpinned. -/
theorem Rep.getRid {iid : Iid} {rid : Rid} (h : Rep E s pins ih) (hroom : pins.length < E.poolSize) (hrun : ih.getRid iid = .ok rid) :
    Returns (getRid E.T.toNodeLayout iid) s fun rid' s' => rid' = rid ∧ Rep E s' pins ih := by
  unfold Index.IxIndexHandle.getRid at hrun
  split at hrun
  · cases hrun
  · rename_i n hn
    split at hrun
    · cases hrun
    · rename_i e he
      obtain rfl := Except.ok.inj hrun
      have hlt := (List.getElem?_eq_some_iff.mp he).1
      unfold Paged.getRid
      refine Returns.bind (h.fetchNode hroom hn) ?_
      rintro ⟨g⟩ s₁ ⟨h₁, -⟩
      obtain ⟨hs, -⟩ := h₁.at_pin hn List.mem_cons_self
      refine Returns.get_bind ?_
      rw [hs.size, if_neg (by unfold Node.size; omega)]
      refine Returns.bind (h₁.unpinPage fun h => h) ?_
      rintro - s₂ ⟨-, h₂, hrecent⟩
      obtain ⟨hs₂, -⟩ := h₂.at_table hn hrecent.1
      refine Returns.get_bind (Returns.pure ⟨?_, h₂⟩)
      obtain ⟨e', he', -, hrid⟩ := hs₂.get hlt
      rw [hrid, Option.some.inj (he.symm.trans he')]

/-- **A lost pin**: `get_rid` of a slot without a pair throws, and does not give its pin back. -/
theorem Rep.getRid_error {iid : Iid} (h : Rep E s pins ih) (hroom : pins.length < E.poolSize)
    (hrun : ih.getRid iid = .error .indexEntryNotFound) :
    ∃ f s', Paged.getRid E.T.toNodeLayout iid s = .error .indexEntryNotFound s' ∧ Rep E s' (E.pin iid.pageNo f false :: pins) ih := by
  unfold Index.IxIndexHandle.getRid at hrun
  split at hrun
  · cases hrun
  · rename_i n hn
    split at hrun
    · rename_i hnone
      have hle := List.getElem?_eq_none_iff.mp hnone
      obtain ⟨⟨g⟩, s₁, hfetch, h₁, -⟩ := h.fetchNode hroom hn
      obtain ⟨hs, -⟩ := h₁.at_pin hn List.mem_cons_self
      refine ⟨g, s₁, ?_, h₁⟩
      unfold Paged.getRid
      have hfull : getSize (s₁.data ⟨g⟩) ≤ iid.slotNo := by
        rw [hs.size]
        unfold Node.size
        omega
      rw [bind_of_ok hfetch, bind_of_ok (show (get : M IxIndexHandle) s₁ = .ok s₁ s₁ from rfl), if_pos hfull]
      rfl
    · cases hrun

/-- `IxScan::next`. -/
theorem Rep.ixNext {last iid iid' : Iid} (h : Rep E s pins ih) (hroom : pins.length < E.poolSize) (hrun : ih.ixNext last iid = .ok iid') :
    Returns (ixNext last iid) s fun i s' => i = iid' ∧ Rep E s' pins ih := by
  unfold Index.IxIndexHandle.ixNext at hrun
  split at hrun
  · cases hrun
  · rename_i n hn
    split at hrun
    · rename_i hok
      obtain ⟨hne, hleaf, hlt⟩ := hok
      unfold Paged.ixNext
      rw [if_neg hne]
      refine Returns.bind (h.fetchNode hroom hn) ?_
      rintro ⟨g⟩ s₁ ⟨h₁, -⟩
      obtain ⟨hs, -⟩ := h₁.at_pin hn List.mem_cons_self
      refine Returns.get_bind ?_
      rw [hs.size, hs.isLeaf, hs.nextLeaf, h₁.lastLeaf, if_pos ⟨hleaf, by exact_mod_cast hlt⟩]
      refine Returns.bind (h₁.unpinPage fun h => h) ?_
      rintro - s₂ ⟨-, h₂, -⟩
      by_cases hend : iid.pageNo ≠ ih.lastLeaf ∧ iid.slotNo + 1 = n.size
      · rw [if_pos hend] at hrun
        rw [if_pos (by exact_mod_cast hend)]
        exact Returns.pure ⟨Except.ok.inj hrun, h₂⟩
      · rw [if_neg hend] at hrun
        rw [if_neg (by exact_mod_cast hend)]
        exact Returns.pure ⟨Except.ok.inj hrun, h₂⟩
    · cases hrun

/-! ### Inserting and deleting -/

/-- A pin says which page is in its frame. -/
theorem Rep.pageNo (h : Rep E s pins ih) (hx : E.pin p f m ∈ pins) : s.pageNo ⟨f⟩ = p := by
  obtain ⟨contents, h⟩ := h
  exact congrArg PageId.pageNo (h.pinned.at_pin hx).2.1

section Tree

variable {lv : List (Leaf (Key E.T.keyCols))} {lvls : List (List (Inner (Key E.T.keyCols)))}

/-- **`insert_entry`.** -/
theorem Rep.insertEntry {key : Key E.T.keyCols} {value : Rid} (h : Rep E s pins ih) (hinv : ih.Inv lv lvls) (hvalue : RidOk value)
    (hroom : pins.length + 2 * lvls.length + 3 ≤ E.poolSize) (hrun : ih.insertEntry key value = some (ih', p))
    (hint : ih'.fd2pageno ≤ INT_MAX) :
    Returns (insertEntry E.T.toNodeLayout key.1 value) s fun q s' => q = p ∧ Rep E s' pins ih' := by
  simp only [Index.IxIndexHandle.insertEntry, Option.bind_eq_bind, Option.bind_eq_some_iff] at hrun
  obtain ⟨found, hfound, leaf, rfl, n, hn, n', hins, hrun⟩ := hrun
  obtain ⟨hdesc, hleaf⟩ := hinv.found hfound
  obtain ⟨hisLeaf, hnext⟩ := hleaf hn
  have hmax := h.maxSize
  rw [hmax] at hins
  unfold Paged.insertEntry
  refine Returns.bind (h.findLeafPage (by omega) hfound) ?_
  rintro node s₁ (⟨hnone, -⟩ | ⟨leaf', f, hsome, rfl, h₁⟩)
  · cases hnone
  obtain rfl := Option.some.inj hsome
  obtain ⟨hs, hpage⟩ := h₁.at_pin hn List.mem_cons_self
  obtain ⟨data, hdata, hs', hsame⟩ := hs.insert hvalue hins
  refine Returns.get_bind ?_
  dsimp only
  by_cases hsize : n'.size = n.size
  · -- the key is there: what is written is what is there
    rw [if_pos hsize] at hrun
    obtain ⟨rfl, rfl⟩ := Prod.mk.inj (Option.some.inj hrun)
    refine Returns.bind (tryModifyData_self (hdata.trans (congrArg some (hsame hsize)))) ?_
    rintro - s₂ rfl
    refine Returns.get_bind ?_
    rw [if_pos rfl, hpage]
    refine Returns.bind (h₁.unpinPage fun h => h) ?_
    rintro - s₃ ⟨-, h₃, -⟩
    exact Returns.pure ⟨rfl, h₃⟩
  · rw [if_neg hsize] at hrun
    refine Returns.bind (h₁.tryModifyData hn fun _ => ⟨data, hdata, hs'⟩) ?_
    rintro - s₂ ⟨h₂, -⟩
    have hn₂ : (ih.setPage leaf n').pages leaf = some n' := Index.IxIndexHandle.setPage_self ..
    obtain ⟨hs₂, -⟩ := h₂.at_pin hn₂ List.mem_cons_self
    refine Returns.get_bind ?_
    rw [hs₂.size, hs.size, if_neg (by exact_mod_cast hsize)]
    -- the leaf is given back at the end
    have hlast : ∀ {s₃ ih₃}, Rep E s₃ (E.pin leaf f true :: pins) ih₃ → Returns (do
        let f' ← get
        let _ ← Paged.unpinPage ⟨f⟩ true
        pure (f'.pageNo ⟨f⟩)) s₃ fun q s' => q = leaf ∧ Rep E s' pins ih₃ := by
      intro s₃ ih₃ h₃
      refine Returns.get_bind ?_
      rw [h₃.pageNo List.mem_cons_self]
      refine Returns.bind (h₃.unpinPage fun _ => rfl) ?_
      rintro - s₄ ⟨-, h₄, -⟩
      exact Returns.pure ⟨rfl, h₄⟩
    have hmax₂ : (ih.setPage leaf n').maxSize = E.T.maxSize := hmax
    rw [hmax₂] at hrun
    have hkeep : n'.isLeaf = n.isLeaf ∧ n'.parent = n.parent ∧ n'.nextLeaf = n.nextLeaf := by
      unfold Node.insert Node.insertPair Node.insertPairs at hins
      split at hins
      · obtain rfl := Option.some.inj hins
        exact ⟨rfl, rfl, rfl⟩
      · split at hins
        · obtain rfl := Option.some.inj hins
          exact ⟨rfl, rfl, rfl⟩
        · cases hins
    by_cases hfull : E.T.maxSize ≤ n'.size
    · rw [if_pos hfull] at hrun
      rw [if_pos (by exact_mod_cast hfull)]
      simp only [Option.bind_eq_some_iff] at hrun
      obtain ⟨⟨ih₁, q⟩, hsplit, node, hnode, newKey, hkey, ih₂, hclimb, hrun⟩ := hrun
      obtain ⟨rfl, rfl⟩ := Prod.mk.inj (Option.some.inj hrun)
      have hcount := (Index.IxIndexHandle.Grows.insertIntoParent hclimb).count
      refine Returns.bind (h₂.split (by omega) hn₂ (fun _ => hkeep.2.2 ▸ hnext) hsplit (hcount.trans hint)) ?_
      rintro ⟨g⟩ s₃ h₃
      obtain ⟨hs₃, -⟩ := h₃.at_pin hnode List.mem_cons_self
      refine Returns.get_bind ?_
      rw [hs₃.keyAt hkey, h₃.bound]
      -- the levels of the tree, and of the two leaves
      have hlev : (ih.setPage leaf n').Leveled (fun p r => ∃ d, ih.Desc d ih.rootPage p ∧ d + r = lvls.length) lvls.length := by
        refine hinv.leveled.setPage (fun hr => ?_) (fun hr => ?_) fun _ hinner => ?_
        · rw [hkeep.2.1]
          exact hinv.leveled.parent hr hn
        · rw [hkeep.1]
          exact hinv.leveled.leaf hr hn
        · rw [hkeep.1, hisLeaf] at hinner
          cases hinner
      have hlevel : ∃ d, ih.Desc d ih.rootPage leaf ∧ d + 0 = lvls.length := ⟨lvls.length, hdesc, rfl⟩
      have hlev₁ := hlev.split hlevel hsplit
      refine Returns.bind (Rep.insertIntoParent hlev₁ (Or.inl hlevel) (Or.inr ⟨rfl, rfl⟩) h₃ (by omega) hclimb hint) ?_
      intro _ s₄ h₄
      refine Returns.bind (h₄.unpinPage fun _ => rfl) ?_
      rintro - s₅ ⟨-, h₅, -⟩
      exact hlast h₅
    · rw [if_neg hfull] at hrun
      rw [if_neg (by exact_mod_cast hfull)]
      simp only [Option.bind_eq_some_iff] at hrun
      obtain ⟨ih₁, hclimb, hrun⟩ := hrun
      obtain ⟨rfl, rfl⟩ := Prod.mk.inj (Option.some.inj hrun)
      rw [h₂.bound]
      refine Returns.bind (h₂.maintainParent (h₂.recent List.mem_cons_self) (by rw [List.length_cons]; omega) hclimb) ?_
      intro _ s₃ h₃
      exact hlast h₃

/-- **`delete_entry`.** -/
theorem Rep.deleteEntry {key : Key E.T.keyCols} {b : Bool} (h : Rep E s pins ih) (hroom : pins.length + 3 ≤ E.poolSize)
    (hrun : ih.deleteEntry key = some (ih', b)) :
    Returns (deleteEntry E.T.toNodeLayout key.1) s fun b' s' => b' = b ∧ Rep E s' pins ih' := by
  simp only [Index.IxIndexHandle.deleteEntry, Option.bind_eq_bind, Option.bind_eq_some_iff] at hrun
  obtain ⟨found, hfound, hrun⟩ := hrun
  unfold Paged.deleteEntry
  refine Returns.bind (h.findLeafPage (by omega) hfound) ?_
  rintro node s₁ (⟨rfl, rfl, h₁⟩ | ⟨leaf, f, rfl, rfl, h₁⟩)
  · obtain ⟨rfl, rfl⟩ := Prod.mk.inj (Option.some.inj hrun)
    exact Returns.pure ⟨rfl, h₁⟩
  simp only [Option.bind_eq_some_iff] at hrun
  obtain ⟨n, hn, n', hrem, hrun⟩ := hrun
  obtain ⟨hs, -⟩ := h₁.at_pin hn List.mem_cons_self
  obtain ⟨data, hdata, hs', hsame⟩ := hs.remove hrem
  refine Returns.get_bind ?_
  dsimp only
  rw [hs.lowerBound]
  by_cases hsize : n'.size = n.size
  · -- the key is not there
    rw [if_pos hsize] at hrun
    obtain ⟨rfl, rfl⟩ := Prod.mk.inj (Option.some.inj hrun)
    refine Returns.bind (tryModifyData_self (hdata.trans (congrArg some (hsame hsize)))) ?_
    rintro - s₂ rfl
    refine Returns.get_bind ?_
    rw [if_pos rfl]
    refine Returns.bind (h₁.unpinPage fun h => h) ?_
    rintro - s₃ ⟨-, h₃, -⟩
    exact Returns.pure ⟨rfl, h₃⟩
  · rw [if_neg hsize] at hrun
    refine Returns.bind (h₁.tryModifyData hn fun _ => ⟨data, hdata, hs'⟩) ?_
    rintro - s₂ ⟨h₂, -⟩
    obtain ⟨hs₂, -⟩ := h₂.at_pin (Index.IxIndexHandle.setPage_self ..) List.mem_cons_self
    refine Returns.get_bind ?_
    rw [hs₂.size, hs.size, if_neg (by exact_mod_cast hsize)]
    have hlast : ∀ {s₃ ih₃}, Rep E s₃ (E.pin leaf f true :: pins) ih₃ → Returns (do
        let _ ← Paged.unpinPage ⟨f⟩ true
        pure true) s₃ fun b' s' => b' = true ∧ Rep E s' pins ih₃ := by
      intro s₃ ih₃ h₃
      refine Returns.bind (h₃.unpinPage fun _ => rfl) ?_
      rintro - s₄ ⟨-, h₄, -⟩
      exact Returns.pure ⟨rfl, h₄⟩
    by_cases hfirst : 0 < n'.size ∧ n.lowerBound key = 0
    · rw [if_pos hfirst] at hrun
      rw [if_pos (by exact_mod_cast hfirst)]
      simp only [Option.bind_eq_some_iff] at hrun
      obtain ⟨ih₁, hclimb, hrun⟩ := hrun
      obtain ⟨rfl, rfl⟩ := Prod.mk.inj (Option.some.inj hrun)
      rw [h₂.bound]
      refine Returns.bind (h₂.maintainParent (h₂.recent List.mem_cons_self) (by rw [List.length_cons]; omega) hclimb) ?_
      intro _ s₃ h₃
      exact hlast h₃
    · rw [if_neg hfirst] at hrun
      rw [if_neg (by exact_mod_cast hfirst)]
      obtain ⟨rfl, rfl⟩ := Prod.mk.inj (Option.some.inj hrun)
      exact hlast h₂

end Tree

end Rmdb.Index.Paged
