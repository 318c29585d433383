import Rmdb.Record.FreeList
import Rmdb.Record.Paged
import Rmdb.Storage.Client

/-!
# What the bytes of a record file stand for

An open file in bytes stands for a file of slots (`abs`). The operations on the bytes do
what the operations on the slots do, and keep the file in order (`Inv`): every page is
pinned and unpinned, so that no frame is lost; no page beyond the end of the file is in the
pool or has contents, so that a new page is empty; and the numbers of the headers fit into
`int`s.
-/

namespace Rmdb.Record.Paged

open Lib Storage

/-! ### Running operations -/

section Exec

variable {α β : Type} {f : RmFileHandle}

/-- Go on after an operation that has not thrown. -/
def andThen (r : Except Error α × RmFileHandle) (k : α → RmFileHandle → Except Error β × RmFileHandle) :
    Except Error β × RmFileHandle :=
  match r with
  | (.ok a, f) => k a f
  | (.error e, f) => (.error e, f)

theorem exec_bind (x : M α) (k : α → M β) : exec (x >>= k) f = andThen (exec x f) fun a f => exec (k a) f := by
  unfold exec andThen
  simp only [ExceptT.run_bind, StateT.run_bind]
  rcases StateT.run (ExceptT.run x) f with ⟨r, f'⟩
  cases r <;> rfl

@[simp] theorem exec_pure (a : α) : exec (pure a) f = (.ok a, f) := rfl

@[simp] theorem exec_get : exec get f = (.ok f, f) := rfl

@[simp] theorem exec_set (f' : RmFileHandle) : exec (set f') f = (.ok ⟨⟩, f') := rfl

@[simp] theorem exec_modify (g : RmFileHandle → RmFileHandle) : exec (modify g) f = (.ok ⟨⟩, g f) := rfl

@[simp] theorem exec_throw (e : Error) : exec (throw e : M α) f = (.error e, f) := rfl

@[simp] theorem andThen_ok (a : α) (k : α → RmFileHandle → Except Error β × RmFileHandle) :
    andThen (.ok a, f) k = k a f := rfl

@[simp] theorem andThen_error (e : Error) (k : α → RmFileHandle → Except Error β × RmFileHandle) :
    andThen (.error e, f) k = (.error e, f) := rfl

theorem exec_ite (c : Prop) [Decidable c] (x y : M α) :
    exec (if c then x else y) f = if c then exec x f else exec y f := by
  split <;> rfl

@[simp] theorem exec_setData (page : RmPageHandle) (data : PageData) : exec (setData page data) f =
    (.ok ⟨⟩, { f with bpm := f.bpm.setPage page.frame { f.bpm.pages page.frame with data := data } }) := rfl

@[simp] theorem exec_unpinPage (pageNo : ℤ) (isDirty : Bool) : exec (unpinPage pageNo isDirty) f =
    (.ok ⟨⟩, { f with bpm := (f.bpm.unpinPage ⟨f.fd, pageNo⟩ isDirty).1 }) := rfl

@[simp] theorem exec_setFirstFreePageNo (pageNo : ℤ) : exec (setFirstFreePageNo pageNo) f =
    (.ok ⟨⟩, { f with fileHdr := { f.fileHdr with firstFreePageNo := pageNo } }) := rfl

end Exec

/-! ### The file of slots -/

/-- The file of slots that the bytes stand for. -/
def abs (hdr : RmFileHdr) (fd : ℤ) (contents : PageId → PageData) : Record.RmFileHandle where
  numPages := hdr.numPages
  numRecordsPerPage := hdr.numRecordsPerPage
  firstFreePageNo := hdr.firstFreePageNo
  pages pageNo := pageOf hdr (contents ⟨fd, pageNo⟩)

/-- What holds of an open file while an operation is at work on it. -/
structure Base (f : RmFileHandle) (contents : PageId → PageData) : Prop where
  layout : Layout f.fileHdr
  /-- The numbers of the header fit into `int`s. -/
  recordSize : InInt f.fileHdr.recordSize
  numRecordsPerPage : InInt f.fileHdr.numRecordsPerPage
  bitmapSize : InInt f.fileHdr.bitmapSize
  numPages : f.fileHdr.numPages ≤ INT_MAX
  /-- The disk manager counts the pages too. -/
  counter : f.bpm.fd2pageno f.fd = f.fileHdr.numPages
  /-- The pages of the file in the pool are record pages. -/
  table : ∀ p frame, f.bpm.pageTable p = some frame → p.fd = f.fd →
    RM_FIRST_RECORD_PAGE ≤ p.pageNo ∧ p.pageNo < f.fileHdr.numPages
  /-- There is nothing beyond the end of the file. -/
  beyond : ∀ pageNo, f.fileHdr.numPages ≤ pageNo → contents ⟨f.fd, pageNo⟩ = zeros

/-- What holds of an open file between the operations. -/
structure Inv (f : RmFileHandle) (contents : PageId → PageData) : Prop where
  base : Base f contents
  idle : Idle f.bpm contents
  ok : ∃ l, (abs f.fileHdr f.fd contents).Ok l

/-- What holds while the operation has a page pinned. -/
structure Working (f : RmFileHandle) (contents : PageId → PageData) (pageNo : ℤ) (page : RmPageHandle)
    (modified : Bool) : Prop where
  base : Base f contents
  held : Held f.bpm contents ⟨⟨f.fd, pageNo⟩, page.frame, modified⟩
  last : pageNo < f.fileHdr.numPages

section Abs

variable {hdr : RmFileHdr} {fd : ℤ} {contents : PageId → PageData} {data : PageData} {pageNo : ℤ} {rid : Rid}

theorem abs_update : abs hdr fd (Function.update contents ⟨fd, pageNo⟩ data) =
    (abs hdr fd contents).setPage pageNo (pageOf hdr data) := by
  unfold abs Record.RmFileHandle.setPage
  simp only [Record.RmFileHandle.mk.injEq, true_and]
  funext q
  by_cases hq : q = pageNo
  · subst hq
    rw [Function.update_self, Function.update_self]
  · rw [Function.update_of_ne hq, Function.update_of_ne]
    exact fun heq => hq (PageId.mk.inj heq).2

/-- The slot of a page, and the test that the operations make. -/
theorem slot_abs : (abs hdr fd contents).slot (pageOf hdr data) rid.slotNo = if noRecord hdr data rid then none
    else some (cellsAt data (getSlot hdr rid.slotNo.toNat) hdr.recordSize) := by
  unfold Record.RmFileHandle.slot noRecord
  by_cases hs : 0 ≤ rid.slotNo ∧ rid.slotNo < hdr.numRecordsPerPage
  · have hlt : rid.slotNo.toNat < hdr.numRecordsPerPage := by omega
    have h1 : ¬ rid.slotNo < 0 := by omega
    have h2 : ¬ (hdr.numRecordsPerPage : ℤ) ≤ rid.slotNo := by omega
    rw [if_pos (show 0 ≤ rid.slotNo ∧ rid.slotNo < (abs hdr fd contents).numRecordsPerPage from hs),
      show (pageOf hdr data).slots = slotsOf hdr data from rfl, getElem?_slotsOf hlt]
    cases Bitmap.isSet data bitmapAt rid.slotNo.toNat <;> simp [h1, h2]
  · rw [if_neg (show ¬ (0 ≤ rid.slotNo ∧ rid.slotNo < (abs hdr fd contents).numRecordsPerPage) from hs), if_pos]
    have : rid.slotNo < 0 ∨ (hdr.numRecordsPerPage : ℤ) ≤ rid.slotNo := by omega
    simp only [Bool.or_eq_true, decide_eq_true_eq]
    exact Or.inl this

theorem records_abs (h1 : RM_FIRST_RECORD_PAGE ≤ rid.pageNo) (h2 : rid.pageNo < hdr.numPages) :
    (abs hdr fd contents).records rid = if noRecord hdr (contents ⟨fd, rid.pageNo⟩) rid then none
      else some (cellsAt (contents ⟨fd, rid.pageNo⟩) (getSlot hdr rid.slotNo.toNat) hdr.recordSize) := by
  unfold Record.RmFileHandle.records
  rw [if_pos ⟨h1, h2⟩]
  exact slot_abs

end Abs

/-! ### Pinned pages -/

section Pins

variable {f : RmFileHandle} {contents : PageId → PageData} {pageNo : ℤ} {page : RmPageHandle} {modified : Bool}

theorem Base.setFirstFreePageNo (h : Base f contents) (p : ℤ) :
    Base { f with fileHdr := { f.fileHdr with firstFreePageNo := p } } contents :=
  ⟨⟨h.layout.fits, h.layout.bits⟩, h.recordSize, h.numRecordsPerPage, h.bitmapSize, h.numPages, h.counter, h.table, h.beyond⟩

theorem Working.data_eq (h : Working f contents pageNo page modified) : f.data page = contents ⟨f.fd, pageNo⟩ :=
  h.held.data

theorem Working.pageNo_eq (h : Working f contents pageNo page modified) : f.pageNo page = pageNo := by
  have htable := h.held.good.held _ List.mem_cons_self
  exact congrArg PageId.pageNo (h.held.good.table _ _ htable).1

theorem Working.setFirstFreePageNo (h : Working f contents pageNo page modified) (p : ℤ) :
    Working { f with fileHdr := { f.fileHdr with firstFreePageNo := p } } contents pageNo page modified :=
  ⟨h.base.setFirstFreePageNo p, h.held, h.last⟩

theorem Working.setData (h : Working f contents pageNo page modified) (data : PageData) :
    Working { f with bpm := f.bpm.setPage page.frame { f.bpm.pages page.frame with data := data } }
      (Function.update contents ⟨f.fd, pageNo⟩ data) pageNo page true := by
  refine ⟨⟨h.base.layout, h.base.recordSize, h.base.numRecordsPerPage, h.base.bitmapSize, h.base.numPages, h.base.counter,
    h.base.table, ?_⟩, h.held.write data, h.last⟩
  intro q hq
  have hne : (⟨f.fd, q⟩ : PageId) ≠ ⟨f.fd, pageNo⟩ := fun heq => by
    have := (PageId.mk.inj heq).2
    have hlast := h.last
    simp only at hq
    omega
  rw [Function.update_of_ne hne]
  exact h.base.beyond q hq

/-- The page is unpinned. -/
theorem Working.unpin (h : Working f contents pageNo page modified) {isDirty : Bool}
    (hdirty : modified = true → isDirty = true) :
    Base { f with bpm := (f.bpm.unpinPage ⟨f.fd, pageNo⟩ isDirty).1 } contents ∧
      Idle (f.bpm.unpinPage ⟨f.fd, pageNo⟩ isDirty).1 contents := by
  obtain ⟨hidle, htable, hcounter⟩ := h.held.unpin hdirty
  refine ⟨⟨h.base.layout, h.base.recordSize, h.base.numRecordsPerPage, h.base.bitmapSize, h.base.numPages, ?_, ?_,
    h.base.beyond⟩, hidle⟩
  · simp only at hcounter ⊢
    rw [hcounter]
    exact h.base.counter
  · simp only at htable ⊢
    rw [htable]
    exact h.base.table

/-- **`fetch_page_handle`** pins a record page. -/
theorem fetchPageHandle_spec (h : Inv f contents) (h1 : RM_FIRST_RECORD_PAGE ≤ pageNo)
    (h2 : pageNo < f.fileHdr.numPages) : ∃ bpm page, exec (fetchPageHandle pageNo) f = (.ok page, { f with bpm := bpm }) ∧
      Working { f with bpm := bpm } contents pageNo page false := by
  have hpos : 0 ≤ (⟨f.fd, pageNo⟩ : PageId).pageNo := by
    unfold RM_FIRST_RECORD_PAGE at h1
    simp only
    omega
  obtain ⟨bpm, frame, hf, hheld, hbrings, hcounter⟩ := h.idle.fetchPage hpos
  refine ⟨bpm, ⟨frame⟩, ?_, ?_⟩
  · unfold fetchPageHandle
    simp only [exec_bind, exec_get, andThen_ok, exec_ite, exec_set, hf]
    rw [if_neg (by omega)]
    rfl
  · have hb := h.base
    refine ⟨⟨hb.layout, hb.recordSize, hb.numRecordsPerPage, hb.bitmapSize, hb.numPages, ?_, ?_, hb.beyond⟩, hheld, h2⟩
    · simp only
      rw [hcounter]
      exact hb.counter
    · intro p fr hp hfd
      by_cases hpid : p = ⟨f.fd, pageNo⟩
      · subst hpid
        exact ⟨h1, h2⟩
      · rcases hold : f.bpm.pageTable p with _ | fr'
        · rw [hbrings p hpid hold] at hp
          cases hp
        · exact hb.table p fr' hold hfd

/-- `fetch_page_handle` throws on other pages. -/
theorem fetchPageHandle_throws (hp : pageNo < RM_FIRST_RECORD_PAGE ∨ f.fileHdr.numPages ≤ pageNo) :
    exec (fetchPageHandle pageNo) f = (.error (.rm (.pageNotExist pageNo)), f) := by
  unfold fetchPageHandle
  simp only [exec_bind, exec_get, andThen_ok, exec_ite, exec_throw]
  rw [if_pos hp]

end Pins

/-! ### The operations -/

/-- The operation has left the file as `g`, with the same record size. -/
structure Leaves (f f' : RmFileHandle) (g : Record.RmFileHandle) (contents' : PageId → PageData) : Prop where
  inv : Inv f' contents'
  abs : abs f'.fileHdr f'.fd contents' = g
  recordSize : f'.fileHdr.recordSize = f.fileHdr.recordSize
  fd : f'.fd = f.fd

/-- How an operation on a record that is not there throws. -/
def NotFound (rid : Rid) (e : Error) : Prop :=
  e = .rm (.recordNotFound rid.pageNo rid.slotNo) ∨ e = .rm (.pageNotExist rid.pageNo)

section Operations

variable {α : Type} {f : RmFileHandle} {contents : PageId → PageData} {rid : Rid} {r buf : Bytes}

theorem Inv.leaves (h : Inv f contents) : Leaves f f (Paged.abs f.fileHdr f.fd contents) contents := ⟨h, rfl, rfl, rfl⟩

/-- A page that is only read. -/
theorem Working.unchanged {bpm : BufferPoolManager} {pageNo : ℤ} {page : RmPageHandle} (h : Inv f contents)
    (hw : Working { f with bpm := bpm } contents pageNo page false) :
    Leaves f { f with bpm := (bpm.unpinPage ⟨f.fd, pageNo⟩ false).1 } (Paged.abs f.fileHdr f.fd contents) contents := by
  obtain ⟨hbase, hidle⟩ := hw.unpin nofun
  exact ⟨⟨hbase, hidle, h.ok⟩, rfl, rfl, rfl⟩

/-- The page of a record is pinned, and the operation goes on. -/
theorem exec_found {x : M α} {k : RmPageHandle → RmFileHandle → M α} (h : Inv f contents)
    (hr : (Paged.abs f.fileHdr f.fd contents).records rid = some r)
    (hx : x = do
      let page ← fetchPageHandle rid.pageNo
      let f ← get
      if noRecord f.fileHdr (f.data page) rid then
        unpinPage rid.pageNo false
        throw (.rm (.recordNotFound rid.pageNo rid.slotNo))
      else k page f) :
    ∃ bpm page, exec x f = exec (k page { f with bpm := bpm }) { f with bpm := bpm } ∧
      Working { f with bpm := bpm } contents rid.pageNo page false ∧
      noRecord f.fileHdr (contents ⟨f.fd, rid.pageNo⟩) rid = false ∧
      cellsAt (contents ⟨f.fd, rid.pageNo⟩) (getSlot f.fileHdr rid.slotNo.toNat) f.fileHdr.recordSize = r := by
  have hin := RmFileHandle.inFile_of_records hr
  obtain ⟨bpm, page, hf, hw⟩ := fetchPageHandle_spec h hin.first hin.last
  rw [records_abs hin.first hin.last] at hr
  have hno : noRecord f.fileHdr (contents ⟨f.fd, rid.pageNo⟩) rid = false := by
    by_contra hne
    rw [if_pos (by simpa using hne)] at hr
    cases hr
  rw [hno, if_neg Bool.false_ne_true, Option.some.injEq] at hr
  refine ⟨bpm, page, ?_, hw, hno, hr⟩
  subst hx
  simp only [exec_bind, hf, andThen_ok, exec_get, exec_ite, hw.data_eq, hno]
  rw [if_neg Bool.false_ne_true]

/-- There is no record, and the operation throws. -/
theorem exec_notFound {x : M α} {k : RmPageHandle → RmFileHandle → M α} (h : Inv f contents)
    (hr : (Paged.abs f.fileHdr f.fd contents).records rid = none)
    (hx : x = do
      let page ← fetchPageHandle rid.pageNo
      let f ← get
      if noRecord f.fileHdr (f.data page) rid then
        unpinPage rid.pageNo false
        throw (.rm (.recordNotFound rid.pageNo rid.slotNo))
      else k page f) :
    ∃ e f', exec x f = (.error e, f') ∧ NotFound rid e ∧
      Leaves f f' (Paged.abs f.fileHdr f.fd contents) contents := by
  subst hx
  by_cases hp : rid.pageNo < RM_FIRST_RECORD_PAGE ∨ f.fileHdr.numPages ≤ rid.pageNo
  · refine ⟨_, f, ?_, Or.inr rfl, h.leaves⟩
    simp only [exec_bind, fetchPageHandle_throws hp, andThen_error]
  · have h1 : RM_FIRST_RECORD_PAGE ≤ rid.pageNo := by omega
    have h2 : rid.pageNo < f.fileHdr.numPages := by omega
    obtain ⟨bpm, page, hf, hw⟩ := fetchPageHandle_spec h h1 h2
    rw [records_abs h1 h2] at hr
    have hno : noRecord f.fileHdr (contents ⟨f.fd, rid.pageNo⟩) rid = true := by
      by_contra hne
      rw [if_neg hne] at hr
      cases hr
    refine ⟨_, _, ?_, Or.inl rfl, hw.unchanged h⟩
    simp only [exec_bind, hf, andThen_ok, exec_get, exec_ite, hw.data_eq, hno, if_true, exec_unpinPage, exec_throw]

/-- **`get_record`** returns the record. -/
theorem getRecord_some (h : Inv f contents) (hr : (Paged.abs f.fileHdr f.fd contents).records rid = some r) :
    ∃ f', exec (getRecord rid) f = (.ok r, f') ∧ Leaves f f' (Paged.abs f.fileHdr f.fd contents) contents := by
  obtain ⟨bpm, page, hx, hw, -, hbytes⟩ := exec_found h hr rfl (x := getRecord rid)
  refine ⟨_, ?_, hw.unchanged h⟩
  rw [hx]
  simp only [exec_bind, exec_unpinPage, andThen_ok, exec_pure, hw.data_eq, hbytes]

theorem getRecord_none (h : Inv f contents) (hr : (Paged.abs f.fileHdr f.fd contents).records rid = none) :
    ∃ e f', exec (getRecord rid) f = (.error e, f') ∧ NotFound rid e ∧
      Leaves f f' (Paged.abs f.fileHdr f.fd contents) contents :=
  exec_notFound h hr rfl

/-- **`is_record`** says whether there is a record, or that the page is not there. -/
theorem isRecord_spec (h : Inv f contents) (rid : Rid) : ∃ out f', exec (isRecord rid) f = (out, f') ∧
    Leaves f f' (Paged.abs f.fileHdr f.fd contents) contents ∧
    (out = .ok ((Paged.abs f.fileHdr f.fd contents).records rid).isSome ∨
      out = .error (.rm (.pageNotExist rid.pageNo)) ∧
        ¬ (RM_FIRST_RECORD_PAGE ≤ rid.pageNo ∧ rid.pageNo < f.fileHdr.numPages)) := by
  by_cases hp : rid.pageNo < RM_FIRST_RECORD_PAGE ∨ f.fileHdr.numPages ≤ rid.pageNo
  · refine ⟨_, f, ?_, h.leaves, Or.inr ⟨rfl, by omega⟩⟩
    unfold isRecord
    simp only [exec_bind, fetchPageHandle_throws hp, andThen_error]
  · have h1 : RM_FIRST_RECORD_PAGE ≤ rid.pageNo := by omega
    have h2 : rid.pageNo < f.fileHdr.numPages := by omega
    obtain ⟨bpm, page, hf, hw⟩ := fetchPageHandle_spec h h1 h2
    refine ⟨_, _, ?_, hw.unchanged h, Or.inl rfl⟩
    unfold isRecord
    simp only [exec_bind, hf, andThen_ok, exec_get, exec_unpinPage, exec_pure, hw.data_eq, records_abs h1 h2]
    cases noRecord f.fileHdr (contents ⟨f.fd, rid.pageNo⟩) rid <;> rfl

/-- The numbers of a file in order are in range. -/
theorem ok_firstFreePageNo {g : Record.RmFileHandle} {l : List ℤ} (h : g.Ok l) :
    -1 ≤ g.firstFreePageNo ∧ g.firstFreePageNo < g.numPages := by
  have hfirst := h.first
  unfold RM_FIRST_RECORD_PAGE at hfirst
  cases l with
  | nil =>
    rw [show g.firstFreePageNo = RM_NO_PAGE from h.list.linked]
    unfold RM_NO_PAGE
    omega
  | cons p t =>
    obtain ⟨h1, h2, -⟩ := (h.list.mem p).mp List.mem_cons_self
    rw [show g.firstFreePageNo = p from h.list.linked.1]
    unfold RM_FIRST_RECORD_PAGE at h1
    omega

theorem Inv.firstFreePageNo (h : Inv f contents) : InInt f.fileHdr.firstFreePageNo := by
  obtain ⟨l, hok⟩ := h.ok
  have hfirst : -1 ≤ f.fileHdr.firstFreePageNo ∧ f.fileHdr.firstFreePageNo < f.fileHdr.numPages := ok_firstFreePageNo hok
  have hpages := h.base.numPages
  unfold INT_MAX at hpages
  unfold InInt
  omega

theorem cellOk_numRecords {n : ℕ} {c : ℤ × List (Option Bytes)} (h : RmFileHandle.CellOk n c) : 0 ≤ c.1 ∧ c.1 ≤ n :=
  ⟨by rw [h.count]; omega, h.le⟩

/-- A page whose bytes have been changed is unpinned. -/
theorem Working.leaves {f' : RmFileHandle} {pageNo : ℤ} {page : RmPageHandle} {modified : Bool} {g : Record.RmFileHandle}
    {l : List ℤ} (hw : Working f' contents pageNo page modified) (habs : Paged.abs f'.fileHdr f'.fd contents = g)
    (hok : g.Ok l) (hsize : f'.fileHdr.recordSize = f.fileHdr.recordSize) (hfd : f'.fd = f.fd) :
    Leaves f { f' with bpm := (f'.bpm.unpinPage ⟨f'.fd, pageNo⟩ true).1 } g contents := by
  obtain ⟨hbase, hidle⟩ := hw.unpin fun _ => rfl
  exact ⟨⟨hbase, hidle, l, by rw [← habs] at hok; exact hok⟩, habs, hsize, hfd⟩

theorem noRecord_eq_false {hdr : RmFileHdr} {data : PageData} (h : noRecord hdr data rid = false) :
    rid.slotNo.toNat < hdr.numRecordsPerPage ∧ Bitmap.isSet data bitmapAt rid.slotNo.toNat = true := by
  unfold noRecord at h
  simp only [Bool.or_eq_false_iff, decide_eq_false_iff_not, Bool.not_eq_false'] at h
  exact ⟨by omega, h.2⟩

/-- **`update_record`** replaces the record. -/
theorem updateRecord_some (h : Inv f contents) (hr : (Paged.abs f.fileHdr f.fd contents).records rid = some r)
    (hbuf : buf.length = f.fileHdr.recordSize) : ∃ f' contents', exec (updateRecord rid buf) f = (.ok (), f') ∧
      Leaves f f' ((Paged.abs f.fileHdr f.fd contents).write rid buf) contents' := by
  obtain ⟨l, hok⟩ := h.ok
  obtain ⟨bpm, page, hx, hw, hno, -⟩ := exec_found h hr rfl (x := updateRecord rid buf)
  obtain ⟨hslot, hset⟩ := noRecord_eq_false hno
  have hw' := hw.setData (copyTo (contents ⟨f.fd, rid.pageNo⟩) (getSlot f.fileHdr rid.slotNo.toNat) buf)
  refine ⟨_, _, ?_, hw'.leaves (abs_update.trans ?_) (hok.write hr buf) rfl rfl⟩
  · rw [hx]
    simp only [exec_bind, exec_setData, andThen_ok, exec_unpinPage, hw.data_eq]
    rw [List.take_of_length_le hbuf.le]
  · rw [pageOf_writeSlot h.base.layout hslot hbuf hset]
    rfl

theorem updateRecord_none (h : Inv f contents) (hr : (Paged.abs f.fileHdr f.fd contents).records rid = none) :
    ∃ e f', exec (updateRecord rid buf) f = (.error e, f') ∧ NotFound rid e ∧
      Leaves f f' (Paged.abs f.fileHdr f.fd contents) contents :=
  exec_notFound h hr rfl

theorem pageOf_takeRecord {hdr : RmFileHdr} {data : PageData} {i : ℕ} (h : Layout hdr) (hi : i < hdr.numRecordsPerPage)
    (hnum : InInt ((pageOf hdr data).numRecords - 1)) : pageOf hdr (takeRecord data i) =
      { pageOf hdr data with
        slots := (pageOf hdr data).slots.set i none
        numRecords := (pageOf hdr data).numRecords - 1 } := by
  have hreset := pageOf_reset data h hi
  have heq : intAt (Bitmap.reset data bitmapAt i) numRecordsAt = (pageOf hdr data).numRecords :=
    congrArg RmPage.numRecords hreset
  unfold takeRecord
  simp only [heq]
  rw [pageOf_setNumRecords h hnum, hreset]

theorem take_of_full {g : Record.RmFileHandle} (h : (g.pages rid.pageNo).numRecords = g.numRecordsPerPage) :
    g.take rid = ({ g with firstFreePageNo := rid.pageNo }).setPage rid.pageNo
      ⟨g.firstFreePageNo, (g.pages rid.pageNo).numRecords - 1, (g.pages rid.pageNo).slots.set rid.slotNo.toNat none⟩ := by
  unfold Record.RmFileHandle.take
  simp only [h, if_true]

theorem take_of_not_full {g : Record.RmFileHandle} (h : ¬ (g.pages rid.pageNo).numRecords = g.numRecordsPerPage) :
    g.take rid = g.setPage rid.pageNo ⟨(g.pages rid.pageNo).nextFreePageNo, (g.pages rid.pageNo).numRecords - 1,
      (g.pages rid.pageNo).slots.set rid.slotNo.toNat none⟩ := by
  unfold Record.RmFileHandle.take
  simp only [h, if_false]

/-- **`delete_record`** takes the record out of its slot. -/
theorem deleteRecord_some (h : Inv f contents) (hr : (Paged.abs f.fileHdr f.fd contents).records rid = some r) :
    ∃ f' contents', exec (deleteRecord rid) f = (.ok (), f') ∧
      Leaves f f' ((Paged.abs f.fileHdr f.fd contents).take rid) contents' := by
  obtain ⟨l, hok⟩ := h.ok
  have hin := RmFileHandle.inFile_of_records hr
  obtain ⟨bpm, page, hx, hw, hno, -⟩ := exec_found h hr rfl (x := deleteRecord rid)
  obtain ⟨hslot, -⟩ := noRecord_eq_false hno
  have hnum := cellOk_numRecords (hok.pages rid.pageNo hin.first hin.last)
  have hper := h.base.numRecordsPerPage
  have hnum' : InInt ((pageOf f.fileHdr (contents ⟨f.fd, rid.pageNo⟩)).numRecords - 1) := by
    change 0 ≤ (pageOf f.fileHdr (contents ⟨f.fd, rid.pageNo⟩)).numRecords ∧
      (pageOf f.fileHdr (contents ⟨f.fd, rid.pageNo⟩)).numRecords ≤ f.fileHdr.numRecordsPerPage at hnum
    unfold InInt at hper ⊢
    omega
  have htake := pageOf_takeRecord h.base.layout hslot hnum'
  have hw₁ := hw.setData (takeRecord (contents ⟨f.fd, rid.pageNo⟩) rid.slotNo.toNat)
  by_cases hfull : ((Paged.abs f.fileHdr f.fd contents).pages rid.pageNo).numRecords =
      (Paged.abs f.fileHdr f.fd contents).numRecordsPerPage
  · have hw₂ := (hw₁.setData (setInt (takeRecord (contents ⟨f.fd, rid.pageNo⟩) rid.slotNo.toNat) nextFreePageNoAt
      f.fileHdr.firstFreePageNo)).setFirstFreePageNo rid.pageNo
    rw [Function.update_idem] at hw₂
    refine ⟨_, _, ?_, hw₂.leaves (abs_update.trans ?_) (hok.take hr) rfl rfl⟩
    · have hfull' : intAt (contents ⟨f.fd, rid.pageNo⟩) numRecordsAt = f.fileHdr.numRecordsPerPage := hfull
      rw [hx]
      simp only [exec_bind, exec_setData, andThen_ok, exec_unpinPage, hw.data_eq, releasePageHandle, exec_get,
        exec_setFirstFreePageNo, exec_ite]
      rw [if_pos (decide_eq_true hfull'), hw₁.data_eq, hw₁.pageNo_eq, Function.update_self]
    · rw [take_of_full hfull]
      change _ = ({ Paged.abs f.fileHdr f.fd contents with firstFreePageNo := rid.pageNo } : Record.RmFileHandle).setPage _ _
      refine congrArg (Record.RmFileHandle.setPage _ rid.pageNo) ?_
      refine (pageOf_setNextFreePageNo h.base.layout h.firstFreePageNo).trans ?_
      rw [htake]
      rfl
  · refine ⟨_, _, ?_, hw₁.leaves (abs_update.trans ?_) (hok.take hr) rfl rfl⟩
    · have hfull' : ¬ intAt (contents ⟨f.fd, rid.pageNo⟩) numRecordsAt = f.fileHdr.numRecordsPerPage := hfull
      rw [hx]
      simp only [exec_bind, exec_setData, andThen_ok, exec_unpinPage, hw.data_eq, exec_ite]
      rw [if_neg (by simpa using hfull')]
    · rw [htake, take_of_not_full hfull]
      rfl

theorem deleteRecord_none (h : Inv f contents) (hr : (Paged.abs f.fileHdr f.fd contents).records rid = none) :
    ∃ e f', exec (deleteRecord rid) f = (.error e, f') ∧ NotFound rid e ∧
      Leaves f f' (Paged.abs f.fileHdr f.fd contents) contents :=
  exec_notFound h hr rfl

/-- **`create_new_page_handle`** adds an empty page. -/
theorem createNewPageHandle_spec (h : Inv f contents) (hroom : f.fileHdr.numPages ≠ INT_MAX) :
    ∃ f' contents' page, exec createNewPageHandle f = (.ok page, f') ∧
      Working f' contents' f.fileHdr.numPages page true ∧
      Paged.abs f'.fileHdr f'.fd contents' = (Paged.abs f.fileHdr f.fd contents).createNewPageHandle.1 ∧
      f'.fd = f.fd ∧ f'.fileHdr.recordSize = f.fileHdr.recordSize := by
  obtain ⟨l, hok⟩ := h.ok
  have hb := h.base
  have hfirst : RM_FIRST_RECORD_PAGE ≤ f.fileHdr.numPages := hok.first
  have hpid : (⟨f.fd, f.fileHdr.numPages⟩ : PageId) = ⟨f.fd, f.bpm.fd2pageno f.fd⟩ := by rw [hb.counter]
  have hpool : f.bpm.pageTable ⟨f.fd, f.fileHdr.numPages⟩ = none := by
    rcases htable : f.bpm.pageTable ⟨f.fd, f.fileHdr.numPages⟩ with _ | frame
    · rfl
    · exact absurd (hb.table _ _ htable rfl).2 (lt_irrefl _)
  have hzero := hb.beyond f.fileHdr.numPages (le_refl _)
  obtain ⟨bpm, frame, hn, hheld, hbrings, hcounter⟩ := h.idle.newPage hpid hpool hzero
  have hdata : (bpm.pages frame).data = zeros := hheld.data.trans hzero
  set data := Bitmap.init (setInt (setInt zeros nextFreePageNoAt f.fileHdr.firstFreePageNo) numRecordsAt 0) bitmapAt
    f.fileHdr.bitmapSize with hd
  refine ⟨{ f with
      bpm := bpm.setPage frame { bpm.pages frame with data := data }
      fileHdr := { f.fileHdr with firstFreePageNo := f.fileHdr.numPages, numPages := f.fileHdr.numPages + 1 } },
    Function.update contents ⟨f.fd, f.fileHdr.numPages⟩ data, ⟨frame⟩, ?_, ⟨⟨⟨hb.layout.fits, hb.layout.bits⟩,
      hb.recordSize, hb.numRecordsPerPage, hb.bitmapSize, ?_, ?_, ?_, ?_⟩, hheld.write data, Int.lt_succ _⟩, ?_, rfl, rfl⟩
  · unfold createNewPageHandle
    simp only [exec_bind, exec_get, andThen_ok, exec_ite, hn]
    rw [if_neg hroom]
    simp only [exec_set, andThen_ok, exec_setData, exec_setFirstFreePageNo, exec_modify, exec_pure, hdata, ← hd]
  · have := hb.numPages
    simp only
    omega
  · change bpm.fd2pageno f.fd = f.fileHdr.numPages + 1
    rw [hcounter, Function.update_self, hb.counter]
  · intro p fr hp hfd
    simp only at hfd ⊢
    by_cases hpp : p = ⟨f.fd, f.fileHdr.numPages⟩
    · subst hpp
      exact ⟨hfirst, Int.lt_succ _⟩
    · rcases hold : f.bpm.pageTable p with _ | fr'
      · have hnone : bpm.pageTable p = none := hbrings p hpp hold
        rw [show bpm.pageTable p = some fr from hp] at hnone
        cases hnone
      · have := hb.table p fr' hold hfd
        omega
  · intro q hq
    simp only at hq ⊢
    rw [Function.update_of_ne]
    · exact hb.beyond q (by omega)
    · intro heq
      have := (PageId.mk.inj heq).2
      omega
  · have hpage : pageOf f.fileHdr data = ⟨f.fileHdr.firstFreePageNo, 0, List.replicate f.fileHdr.numRecordsPerPage none⟩ :=
      pageOf_init hb.layout h.firstFreePageNo
    exact abs_update.trans (congrArg (Record.RmFileHandle.setPage _ f.fileHdr.numPages) hpage)

/-- A page can be found for another record, or added. -/
def RmFileHandle.HasRoom (f : RmFileHandle) : Prop :=
  f.fileHdr.firstFreePageNo = RM_NO_PAGE → f.fileHdr.numPages ≠ INT_MAX

/-- **`create_page_handle`** pins a page with room, after adding one if there is none. -/
theorem createPageHandle_spec (h : Inv f contents) (hroom : f.HasRoom) :
    ∃ f' contents' page pageNo modified, exec createPageHandle f = (.ok page, f') ∧
      Working f' contents' pageNo page modified ∧
      (Paged.abs f.fileHdr f.fd contents).createPageHandle = .ok (Paged.abs f'.fileHdr f'.fd contents', pageNo) ∧
      f'.fd = f.fd ∧ f'.fileHdr.recordSize = f.fileHdr.recordSize := by
  obtain ⟨l, hok⟩ := h.ok
  by_cases hnone : f.fileHdr.firstFreePageNo = RM_NO_PAGE
  · obtain ⟨f', contents', page, hx, hw, habs, hfd, hsize⟩ := createNewPageHandle_spec h (hroom hnone)
    refine ⟨f', contents', page, _, true, ?_, hw, ?_, hfd, hsize⟩
    · unfold createPageHandle
      simp only [exec_bind, exec_get, andThen_ok, exec_ite]
      rw [if_pos hnone, hx]
    · unfold Record.RmFileHandle.createPageHandle
      rw [if_pos (show (Paged.abs f.fileHdr f.fd contents).firstFreePageNo = RM_NO_PAGE from hnone), habs]
      rfl
  · have hrange : RM_FIRST_RECORD_PAGE ≤ f.fileHdr.firstFreePageNo ∧ f.fileHdr.firstFreePageNo < f.fileHdr.numPages := by
      cases l with
      | nil => exact absurd hok.list.linked hnone
      | cons p t =>
        obtain ⟨h1, h2, -⟩ := (hok.list.mem p).mp List.mem_cons_self
        have hp : f.fileHdr.firstFreePageNo = p := hok.list.linked.1
        rw [hp]
        exact ⟨h1, h2⟩
    obtain ⟨bpm, page, hx, hw⟩ := fetchPageHandle_spec h hrange.1 hrange.2
    refine ⟨_, contents, page, _, false, ?_, hw, ?_, rfl, rfl⟩
    · unfold createPageHandle
      simp only [exec_bind, exec_get, andThen_ok, exec_ite]
      rw [if_neg hnone, hx]
    · unfold Record.RmFileHandle.createPageHandle Record.RmFileHandle.fetchPageHandle
      rw [if_neg (show ¬ (Paged.abs f.fileHdr f.fd contents).firstFreePageNo = RM_NO_PAGE from hnone), if_neg]
      · rfl
      · change ¬ (f.fileHdr.firstFreePageNo < RM_FIRST_RECORD_PAGE ∨ f.fileHdr.numPages ≤ f.fileHdr.firstFreePageNo)
        omega

theorem pageOf_putRecord {hdr : RmFileHdr} {data : PageData} {i : ℕ} (h : Layout hdr) (hi : i < hdr.numRecordsPerPage)
    (hbuf : buf.length = hdr.recordSize) (hnum : InInt ((pageOf hdr data).numRecords + 1)) :
    pageOf hdr (putRecord hdr data i buf) =
      { pageOf hdr data with
        slots := (pageOf hdr data).slots.set i (some buf)
        numRecords := (pageOf hdr data).numRecords + 1 } := by
  have hput := pageOf_putSlot data h hi hbuf
  have heq : intAt (copyTo (Bitmap.set data bitmapAt i) (getSlot hdr i) buf) numRecordsAt = (pageOf hdr data).numRecords :=
    congrArg RmPage.numRecords hput
  unfold putRecord
  simp only [List.take_of_length_le hbuf.le, heq]
  rw [pageOf_setNumRecords h hnum, hput]

/-- The state after `insert_record` has written to its page. -/
def RmFileHandle.inserted (f : RmFileHandle) (page : RmPageHandle) (data : PageData) : RmFileHandle :=
  if intAt data numRecordsAt = f.fileHdr.numRecordsPerPage then
    { f with
      bpm := f.bpm.setPage page.frame { f.bpm.pages page.frame with data := setInt data nextFreePageNoAt RM_NO_PAGE }
      fileHdr := { f.fileHdr with firstFreePageNo := intAt data nextFreePageNoAt } }
  else { f with bpm := f.bpm.setPage page.frame { f.bpm.pages page.frame with data := data } }

section Insert

variable {f₁ : RmFileHandle} {contents₁ : PageId → PageData} {page : RmPageHandle} {pageNo : ℤ} {modified : Bool}
  {slotNo : ℕ}

theorem exec_insertRecord (hx : exec createPageHandle f = (.ok page, f₁))
    (hw : Working f₁ contents₁ pageNo page modified)
    (hfind : Bitmap.firstBit false (contents₁ ⟨f₁.fd, pageNo⟩) bitmapAt f₁.fileHdr.numRecordsPerPage = slotNo)
    (hlt : slotNo < f₁.fileHdr.numRecordsPerPage) :
    exec (insertRecord buf) f = (.ok ⟨pageNo, slotNo⟩,
      let f₂ := f₁.inserted page (putRecord f₁.fileHdr (contents₁ ⟨f₁.fd, pageNo⟩) slotNo buf)
      { f₂ with bpm := (f₂.bpm.unpinPage ⟨f₂.fd, pageNo⟩ true).1 }) := by
  unfold insertRecord
  simp only [exec_bind, hx, andThen_ok, exec_get, exec_ite, hw.data_eq, hfind, if_neg (not_le.mpr hlt), exec_setData,
    exec_setFirstFreePageNo, exec_unpinPage, exec_pure, hw.pageNo_eq]
  unfold RmFileHandle.inserted
  split <;> rfl

/-- The file of slots after `insert_record` has written to its page. -/
def insertedPage (g : Record.RmFileHandle) (pageNo : ℤ) (slotNo : ℕ) (buf : Bytes) : Record.RmFileHandle :=
  if (g.pages pageNo).numRecords + 1 = g.numRecordsPerPage then
    ({ g with firstFreePageNo := (g.pages pageNo).nextFreePageNo }).setPage pageNo
      ⟨RM_NO_PAGE, (g.pages pageNo).numRecords + 1, (g.pages pageNo).slots.set slotNo (some buf)⟩
  else g.setPage pageNo ⟨(g.pages pageNo).nextFreePageNo, (g.pages pageNo).numRecords + 1,
    (g.pages pageNo).slots.set slotNo (some buf)⟩

theorem insertRecord_of_createPageHandle (buf : Bytes) {g g₁ : Record.RmFileHandle} (h : g.createPageHandle = .ok (g₁, pageNo))
    (hlt : (g₁.pages pageNo).slots.findIdx (·.isNone) < g₁.numRecordsPerPage) :
    g.insertRecord buf = .ok (insertedPage g₁ pageNo ((g₁.pages pageNo).slots.findIdx (·.isNone)) buf,
      ⟨pageNo, ((g₁.pages pageNo).slots.findIdx (·.isNone) : ℕ)⟩) := by
  unfold Record.RmFileHandle.insertRecord insertedPage
  rw [h]
  simp only [bind, Except.bind]
  rw [if_pos hlt]
  split <;> rfl

/-- The bytes that `insert_record` writes. -/
theorem Working.inserted (hw : Working f₁ contents₁ pageNo page modified) {g : Record.RmFileHandle}
    (hg : Paged.abs f₁.fileHdr f₁.fd contents₁ = g) {data : PageData}
    (hput : pageOf f₁.fileHdr data = ⟨(g.pages pageNo).nextFreePageNo, (g.pages pageNo).numRecords + 1,
      (g.pages pageNo).slots.set slotNo (some buf)⟩) :
    ∃ contents₂, Working (f₁.inserted page data) contents₂ pageNo page true ∧ (f₁.inserted page data).fd = f₁.fd ∧
      (f₁.inserted page data).fileHdr.recordSize = f₁.fileHdr.recordSize ∧
      Paged.abs (f₁.inserted page data).fileHdr (f₁.inserted page data).fd contents₂ =
        insertedPage g pageNo slotNo buf := by
  have hcount : intAt data numRecordsAt = (g.pages pageNo).numRecords + 1 := congrArg RmPage.numRecords hput
  have hnext : intAt data nextFreePageNoAt = (g.pages pageNo).nextFreePageNo := congrArg RmPage.nextFreePageNo hput
  have hper : g.numRecordsPerPage = f₁.fileHdr.numRecordsPerPage := by
    rw [← hg]
    rfl
  unfold RmFileHandle.inserted insertedPage
  rw [hper, ← hcount, ← hnext]
  by_cases hfull : intAt data numRecordsAt = f₁.fileHdr.numRecordsPerPage
  · rw [if_pos hfull, if_pos hfull]
    refine ⟨Function.update contents₁ ⟨f₁.fd, pageNo⟩ (setInt data nextFreePageNoAt RM_NO_PAGE),
      (hw.setFirstFreePageNo (intAt data nextFreePageNoAt)).setData _, rfl, rfl, abs_update.trans ?_⟩
    have hpage : pageOf f₁.fileHdr (setInt data nextFreePageNoAt RM_NO_PAGE) =
        { pageOf f₁.fileHdr data with nextFreePageNo := RM_NO_PAGE } :=
      pageOf_setNextFreePageNo hw.base.layout (by unfold InInt RM_NO_PAGE; omega)
    rw [hput, ← hcount] at hpage
    rw [← hg] at hpage ⊢
    exact congrArg (Record.RmFileHandle.setPage _ pageNo) hpage
  · rw [if_neg hfull, if_neg hfull]
    refine ⟨Function.update contents₁ ⟨f₁.fd, pageNo⟩ data, hw.setData data, rfl, rfl, abs_update.trans ?_⟩
    rw [hput, hcount, hnext, ← hg]

end Insert

/-- **`insert_record`** puts the record into a free slot. -/
theorem insertRecord_spec (h : Inv f contents) (hroom : f.HasRoom)
    (hbuf : buf.length = f.fileHdr.recordSize) : ∃ f' contents' g rid, exec (insertRecord buf) f = (.ok rid, f') ∧
      (Paged.abs f.fileHdr f.fd contents).insertRecord buf = .ok (g, rid) ∧ Leaves f f' g contents' := by
  obtain ⟨l, hok⟩ := h.ok
  obtain ⟨f₁, contents₁, page, pageNo, modified, hx, hw, hslots, hfd, hsize⟩ := createPageHandle_spec h hroom
  obtain ⟨hpages, -, -, -, hp, hp', -⟩ := RmFileHandle.createPageHandle_cases hok.pages hok.first hslots
  have hcell := hpages pageNo hp hp'
  -- there is a free slot, as the insertion into the slots does not fail
  have hlt : (slotsOf f₁.fileHdr (contents₁ ⟨f₁.fd, pageNo⟩)).findIdx (·.isNone) < f₁.fileHdr.numRecordsPerPage := by
    by_contra hge
    obtain ⟨g', N, rid, hrun, -⟩ := RmFileHandle.insertRecord_spec hok buf
    unfold Record.RmFileHandle.insertRecord at hrun
    rw [hslots] at hrun
    simp only [bind, Except.bind] at hrun
    rw [if_neg (show ¬ ((Paged.abs f₁.fileHdr f₁.fd contents₁).pages pageNo).slots.findIdx (·.isNone) <
      (Paged.abs f₁.fileHdr f₁.fd contents₁).numRecordsPerPage from hge)] at hrun
    cases hrun
  have hnum : InInt ((pageOf f₁.fileHdr (contents₁ ⟨f₁.fd, pageNo⟩)).numRecords + 1) := by
    have hrange : 0 ≤ (pageOf f₁.fileHdr (contents₁ ⟨f₁.fd, pageNo⟩)).numRecords ∧
        (pageOf f₁.fileHdr (contents₁ ⟨f₁.fd, pageNo⟩)).numRecords ≤ f₁.fileHdr.numRecordsPerPage :=
      cellOk_numRecords hcell
    have h1 := hw.base.layout.bits
    have h2 := hw.base.layout.bitmap_fits
    unfold Storage.PAGE_SIZE at h2
    unfold InInt
    omega
  obtain ⟨contents₂, hw₂, hfd₂, hsize₂, habs₂⟩ := hw.inserted rfl
    (pageOf_putRecord hw.base.layout hlt (hbuf.trans hsize.symm) hnum)
  have hins := insertRecord_of_createPageHandle buf hslots hlt
  obtain ⟨l', hok'⟩ := hok.insertRecord hins
  have hleaves := hw₂.leaves habs₂ hok' (hsize₂.trans hsize) (hfd₂.trans hfd)
  exact ⟨_, contents₂, _, _, exec_insertRecord hx hw firstBit_slotsOf hlt, hins, hleaves⟩

/-- Without room, the number of pages overflows. -/
theorem insertRecord_overflow (hroom : ¬ f.HasRoom) : exec (insertRecord buf) f = (.error .overflow, f) := by
  obtain ⟨hnone, hnum⟩ : f.fileHdr.firstFreePageNo = RM_NO_PAGE ∧ f.fileHdr.numPages = INT_MAX := by
    unfold RmFileHandle.HasRoom at hroom
    push Not at hroom
    exact hroom
  unfold insertRecord createPageHandle createNewPageHandle
  simp only [exec_bind, exec_get, andThen_ok, exec_ite, hnone, hnum, if_true, exec_throw, andThen_error]

end Operations

end Rmdb.Record.Paged
