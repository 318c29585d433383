import Rmdb.Index.PagedRun
import Rmdb.System.Descriptors

/-!
# Sessions on an index file

An index file is opened, used and closed, and opened again. Each time the operating system gives it some descriptor that is not in
use, the number of its pages is counted anew, and the frames of its pages are found in some order when it is closed.

`close_index` writes the header, and `delete_all_pages` writes every page of the file that is in the pool, whether or not it is
pinned. So the file holds the tree afterwards, and the pins that failing scans have lost are gone.
-/

namespace Rmdb.Index.Paged

open Lib Storage NodePage Fs
open Record (InInt)
open Record.Paged (INT_MAX)

variable {kc : KeyCols} {htot : colTotLen kc.cols ≤ IX_MAX_COL_LEN} {bpm : BufferPoolManager} {contents : PageId → PageData}
  {pins : List Pin} {file : Pages} {ops : List (Op (Key kc))} {tree : Index.IxIndexHandle (Key kc)} {lv : List (Leaf (Key kc))}
  {lvls : List (List (Inner (Key kc)))}

/-! ### Closing -/

/-- **`close_index`** leaves the tree on disk, and no page of the file in the pool. -/
theorem Rep.closeIndex {E : Env} {s : IxIndexHandle} {tree : Index.IxIndexHandle (Key E.T.keyCols)} (h : Rep E s pins tree)
    (hcols : E.T.cols.length ≤ 507) (htot : colTotLen E.T.cols ≤ IX_MAX_COL_LEN) (horder : E.T.btreeOrder = btreeOrderOf (colTotLen E.T.cols))
    (hlinks : ∀ p ∈ [tree.rootPage, tree.firstLeaf, tree.lastLeaf], 2 ≤ p ∧ p < tree.numPages) {frameIds : List ℕ}
    (hl : s.bpm.Lists E.fd frameIds) :
    ∃ bpm file contents, closeIndex E.T.toNodeLayout s frameIds = (bpm, file) ∧ OnDisk E.T file tree ∧
      Pinned bpm contents (pins.filter fun x => x.pid.fd ≠ E.fd) ∧ bpm.poolSize = E.poolSize ∧
      (∀ p f, bpm.pageTable p = some f → p.fd ≠ E.fd) ∧ ∀ pid : PageId, pid.fd ≠ E.fd → contents pid = E.others pid := by
  obtain ⟨contents, h⟩ := h
  have hint : InInt tree.numPages := by
    have h₁ := h.first
    have h₂ := h.int
    rw [h.count]
    unfold INT_MAX at h₂
    constructor <;> omega
  have hsame := reopensSame hcols htot (h.order.trans horder) h.count hint hlinks
  have hhdr : s.fileHdr E.T.toNodeLayout = tree.fileHdr E.T.cols := by
    rw [IxIndexHandle.fileHdr, Index.IxIndexHandle.fileHdr, h.rootPage, h.numPages, h.firstLeaf, h.lastLeaf, h.order]
  -- the file with the header written
  set before : Pages := fun pageNo => s.bpm.disk ⟨E.fd, pageNo⟩ with hbefore
  set written : Pages := tree.closeHdr E.T.cols before with hwritten
  set bpm₁ : BufferPoolManager := { s.bpm with disk := fun p => if p.fd = E.fd then written p.pageNo else s.bpm.disk p } with hbpm₁
  have hclose : Paged.closeIndex E.T.toNodeLayout s frameIds =
      (bpm₁.deleteAllPages E.fd frameIds, fun pageNo => (bpm₁.deleteAllPages E.fd frameIds).disk ⟨E.fd, pageNo⟩) := by
    unfold Paged.closeIndex
    rw [hhdr, h.fd]
    rfl
  have hdisk : ∀ {p : PageId}, p ≠ ⟨E.fd, IX_FILE_HDR_PAGE⟩ → bpm₁.disk p = s.bpm.disk p := by
    rintro ⟨fd, pageNo⟩ hp
    change (if fd = E.fd then written pageNo else s.bpm.disk ⟨fd, pageNo⟩) = _
    split
    · subst fd
      exact hsame.closed before pageNo fun hzero => hp (congrArg (PageId.mk E.fd) hzero)
    · rfl
  have hstay : ∀ p f, s.bpm.pageTable p = some f → bpm₁.disk p = s.bpm.disk p := fun p f hp => hdisk (by
    rintro rfl
    cases h.noHeader.symm.trans hp)
  have hpinned := h.pinned.remount bpm₁.disk hstay h.pinned.good.counters
  obtain ⟨hpinned', htable, hsize, hrest⟩ := hpinned.deleteAllPages hl
  have hout : ∀ p f, (bpm₁.deleteAllPages E.fd frameIds).pageTable p = some f → p.fd ≠ E.fd := fun p f hp hfd => by
    cases ((htable p).mpr (Or.inr hfd)).symm.trans hp
  have hcontents : ∀ {p : PageId}, p ≠ ⟨E.fd, IX_FILE_HDR_PAGE⟩ →
      (if s.bpm.pageTable p = none then (bpm₁.disk p).getD zeros else contents p) = contents p := by
    intro p hp
    split
    · rw [hdisk hp]
      exact h.pinned.good.gone p ‹_›
    · rfl
  refine ⟨_, _, _, hclose, ⟨?_, fun {p n} hn => ?_, fun {p} hp => ?_, h.first, h.int, h.count, h.order⟩, hpinned', hsize.trans h.poolSize,
    hout, fun pid hpid => ?_⟩
  · refine (openHdr_congr ?_).trans (hsame.header before)
    exact (hrest _ h.noHeader).trans (if_pos rfl)
  · obtain ⟨hpos, hlt, hs⟩ := h.nodes hn
    refine ⟨hpos, hlt, ?_⟩
    have hpage : (⟨E.fd, p⟩ : PageId) ≠ ⟨E.fd, IX_FILE_HDR_PAGE⟩ := fun heq => by
      have hzero : p = 0 := congrArg PageId.pageNo heq
      omega
    have hgone := hpinned'.good.gone ⟨E.fd, p⟩ ((htable _).mpr (Or.inr rfl))
    rw [← hcontents hpage, ← hgone] at hs
    exact hs
  · obtain ⟨-, hnone, hblank⟩ := h.fresh hp
    have hfirst := h.first
    refine (hrest _ hnone).trans ((hdisk ?_).trans hblank)
    intro heq
    have hzero : p = 0 := congrArg PageId.pageNo heq
    omega
  · rw [hcontents fun heq => hpid (congrArg PageId.fd heq)]
    exact h.others pid (Or.inl hpid)

/-! ### Sessions -/

/-- **The index serves the sessions**: whichever descriptor that is not in use a session gets, it opens the index, and all its calls
are answered right; and in whichever order closing finds the frames, the pins of others and what the pages of other files hold are
as before, and the index serves the sessions that follow. -/
def Serves (kc : KeyCols) (htot : colTotLen kc.cols ≤ IX_MAX_COL_LEN) (pins : List Pin) :
    List (Op (Key kc)) → List (List (Call (Key kc))) → BufferPoolManager → (PageId → PageData) → Pages → Prop
  | _, [], _, _, _ => True
  | ops, calls :: sessions, bpm, contents, file => ∀ fd size, (∀ p f, bpm.pageTable p = some f → p.fd ≠ fd) → SizeOf file size →
    ∃ s answers s', openIndex bpm file (DiskManager.pagesOfSize size) fd = some s ∧
      runCalls (.create kc.cols htot) (·.1) calls s = (answers, s') ∧ AllRight (btreeOrderOf (colTotLen kc.cols)) ops calls answers ∧
      ∀ frameIds, s'.bpm.Lists fd frameIds → ∃ bpm' file' contents', closeIndex (.create kc.cols htot) s' frameIds = (bpm', file') ∧
        Pinned bpm' contents' pins ∧ (∀ pid : PageId, pid.fd ≠ fd → contents' pid = contents pid) ∧
        Serves kc htot pins (ops ++ updates calls) sessions bpm' contents' file'

/-- One session after another. -/
theorem OnDisk.serves (hcols : kc.cols.length ≤ 507) : ∀ {sessions : List (List (Call (Key kc)))} {ops : List (Op (Key kc))}
    {bpm : BufferPoolManager} {contents : PageId → PageData} {file : Pages} {tree : Index.IxIndexHandle (Key kc)}
    {lv : List (Leaf (Key kc))} {lvls : List (List (Inner (Key kc)))}, OnDisk (.create kc htot) file tree →
    Built (btreeOrderOf (colTotLen kc.cols)) ops tree lv lvls → Pinned bpm contents pins →
    (∀ calls ∈ sessions, ∀ key value, .insert key value ∈ calls → RidOk value) →
    (∀ calls ∈ sessions, pins.length + calls.countP Call.isScan + 63 ≤ bpm.poolSize) →
    (∀ ih, runOps (Index.IxIndexHandle.createIndex (btreeOrderOf (colTotLen kc.cols))) (ops ++ sessions.flatMap updates) = some ih →
      ih.fd2pageno ≤ INT_MAX) →
    Serves kc htot pins ops sessions bpm contents file
  | [], _, _, _, _, _, _, _, _, _, _, _, _, _ => trivial
  | calls :: sessions, ops, bpm, contents, file, tree, lv, lvls, hdisk, hbuilt, hpinned, hvalues, hroom, hint => by
    intro fd size hfd hsize
    rw [List.flatMap_cons, ← List.append_assoc] at hint
    have hcount : DiskManager.pagesOfSize size ≤ tree.fd2pageno := by
      have hfirst := hdisk.first
      refine pagesOfSize_le hsize (by omega) ?_
      intro n hn
      by_contra hlt
      exact hn (hdisk.fresh (not_lt.mp hlt))
    obtain ⟨s, hopen, hrep⟩ := hdisk.openIndex hpinned hfd hcount
    obtain ⟨answers, s', tree', lv', lvls', lost, hrun, hright, -, hlost, h'⟩ := Sound.runCalls { hbuilt with rep := hrep }
      (hvalues calls List.mem_cons_self) (hroom calls List.mem_cons_self) (hbuilt.pages_le hint)
    refine ⟨s, answers, s', hopen, hrun, hright, ?_⟩
    intro frameIds hl
    obtain ⟨ih, hrun', -, -, hlinks⟩ := run_header (btreeOrderOf_fits htot).1 (ops ++ updates calls)
    obtain rfl := Option.some.inj (hrun'.symm.trans h'.run)
    obtain ⟨bpm', file', contents', hclose, hdisk', hpinned', hsize', -, hothers⟩ := h'.rep.closeIndex hcols htot rfl hlinks hl
    -- the pins that are left are those of the others
    have hpins : (lost ++ pins).filter (fun x => x.pid.fd ≠ fd) = pins := by
      rw [List.filter_append, List.filter_eq_nil_iff.mpr, List.nil_append, List.filter_eq_self.mpr]
      · exact fun x hx => decide_eq_true (hfd _ _ (hpinned.good.held x hx))
      · exact fun x hx hne => of_decide_eq_true hne (hlost x hx)
    rw [← hpins]
    refine ⟨bpm', file', contents', hclose, hpinned', fun pid hpid => (hothers pid hpid).trans (if_neg hpid), ?_⟩
    rw [hpins] at hpinned' ⊢
    exact hdisk'.serves hcols h'.toBuilt hpinned' (fun calls hc => hvalues calls (List.mem_cons_of_mem _ hc))
      (fun calls hc => (hroom calls (List.mem_cons_of_mem _ hc)).trans_eq hsize'.symm) hint

/-- **An index serves all sessions on it** from its creation on, beside clients that hold pins in the same pool. -/
theorem index_serves (kc : KeyCols) (hcols : kc.cols.length ≤ 507) (htot : colTotLen kc.cols ≤ IX_MAX_COL_LEN)
    (hpinned : Pinned bpm contents pins) (sessions : List (List (Call (Key kc))))
    (hvalues : ∀ calls ∈ sessions, ∀ key value, .insert key value ∈ calls → RidOk value)
    (hroom : ∀ calls ∈ sessions, pins.length + calls.countP Call.isScan + 63 ≤ bpm.poolSize)
    (hint : ∀ ih, runOps (Index.IxIndexHandle.createIndex (btreeOrderOf (colTotLen kc.cols))) (sessions.flatMap updates) = some ih →
      ih.fd2pageno ≤ INT_MAX) :
    ∃ file, createIndex kc.cols = .ok file ∧ Serves kc htot pins [] sessions bpm contents file := by
  obtain ⟨file, hfile, hdisk⟩ := createIndex_onDisk kc hcols htot
  obtain ⟨lv, lvls, hbuilt⟩ := built_createIndex kc (btreeOrderOf_fits htot).1
  exact ⟨file, hfile, hdisk.serves hcols hbuilt hpinned hvalues hroom hint⟩

theorem index_serves_seven : ∃ file, createIndex intColumn.cols = .ok file ∧
    Serves intColumn (by decide) [] [] [sevenCalls, [.getValue keySeven]] (.create 64 (fun _ => none) fun _ => 0) (fun _ => zeros) file :=
  index_serves intColumn (by decide) (by decide)
    (Idle.pinned (Idle.create (show 0 < 64 by decide) (fun _ => none) fun _ => le_refl 0)) [sevenCalls, [.getValue keySeven]]
    (by
      intro calls hcalls key value h
      rcases List.mem_cons.mp hcalls with rfl | hcalls
      · exact sevenCalls_ridOk h
      · rw [List.mem_singleton.mp hcalls] at h
        simp at h)
    (by decide) sevenCalls_pages

end Rmdb.Index.Paged
